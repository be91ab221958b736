import Mathlib.Data.Set.Finite.Lattice

/-!
# Waiting for locks

Parties hold locks and wait for locks. A party is blocked when a lock that it waits for is
held by another one. Where locks can be ranked so that a party that waits for a lock of
another one holds only locks of lower ranks, behind every blocked party stands one that is
not blocked.
-/

namespace SparkRing.LockWaits

variable {ι L : Type*} (holds waits : ι → L → Prop)

/-- A party waits for a lock that another one holds. -/
def Blocked (t : ι) : Prop := ∃ l u, waits t l ∧ holds u l ∧ u ≠ t

/-- A party that waits for a lock of another one holds only locks of lower ranks. -/
def Ranked (rank : L → ℕ) : Prop := ∀ t l k u, holds t l → waits t k → holds u k → u ≠ t → rank l < rank k

variable {holds waits} {rank : L → ℕ} {t : ι} {l : L}

/-- Behind every held lock stands a holder that is not blocked. -/
theorem Ranked.exists_not_blocked_of_holds [Finite L] (h : Ranked holds waits rank) (hholds : holds t l) :
    ∃ u k, holds u k ∧ ¬Blocked holds waits u := by
  obtain ⟨bound, hbound⟩ : ∃ bound, ∀ k, rank k ≤ bound := by
    obtain ⟨bound, hbound⟩ := (Set.finite_range rank).bddAbove
    exact ⟨bound, fun k => hbound ⟨k, rfl⟩⟩
  -- the ranks of the locks that block one party after another rise
  induction hless : bound - rank l using Nat.strong_induction_on generalizing t l with
  | h n ih =>
    by_cases hblocked : Blocked holds waits t
    · obtain ⟨k, u, hwaits, hother, hne⟩ := hblocked
      have hrank : rank l < rank k := h t l k u hholds hwaits hother hne
      have hk := hbound k
      exact ih (bound - rank k) (by omega) hother rfl
    · exact ⟨t, l, hholds, hblocked⟩

/-- Some party that is a given one or holds a lock is not blocked. -/
theorem Ranked.exists_not_blocked [Finite L] (h : Ranked holds waits rank) (t : ι) :
    ∃ u, (u = t ∨ ∃ k, holds u k) ∧ ¬Blocked holds waits u := by
  by_cases hblocked : Blocked holds waits t
  · obtain ⟨k, u, _, hother, _⟩ := hblocked
    obtain ⟨v, l, hholds, hfree⟩ := h.exists_not_blocked_of_holds hother
    exact ⟨v, Or.inr ⟨l, hholds⟩, hfree⟩
  · exact ⟨t, Or.inl rfl, hblocked⟩

end SparkRing.LockWaits
