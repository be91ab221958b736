import Mathlib.Data.List.Basic

/-!
# Tables of shared and exclusive locks

A table lists, for each lock, the parties that hold it and how. A lock is granted
exactly when it is compatible with what is held; what the table says of a party is
what the party's own state says it owns, through every grant, release and death.
-/

namespace SparkRing.LockTable

open Function

/-- How a lock is held. -/
inductive Mode
  /-- Together with other shared holders. -/
  | shared
  /-- Alone. -/
  | exclusive
  deriving DecidableEq

/-- The holders of every lock. -/
abbrev Table (L ι : Type) := L → List (ι × Mode)

variable {L ι σ : Type} {t : Table L ι} {l k : L} {c d : ι} {m n : Mode} {gone : ι → Bool}

/-- A lock is compatible with what is held. -/
def Table.grants (t : Table L ι) (l : L) : Mode → Bool
  | .shared => (t l).all fun holder => decide (holder.2 = .shared)
  | .exclusive => (t l).isEmpty

/-- A party holds a lock. -/
def Table.acquire [DecidableEq L] (t : Table L ι) (l : L) (c : ι) (m : Mode) : Table L ι := Function.update t l ((c, m) :: t l)

/-- A party no longer holds a lock. -/
def Table.release [DecidableEq L] [DecidableEq ι] (t : Table L ι) (l : L) (c : ι) : Table L ι :=
  Function.update t l ((t l).filter fun holder => decide (holder.1 ≠ c))

/-- Parties no longer hold anything. -/
def Table.drop (t : Table L ι) (gone : ι → Bool) : Table L ι := fun l => (t l).filter fun holder => !gone holder.1

/-- An exclusive holder is alone. -/
def Sound (t : Table L ι) : Prop := ∀ l c, (c, .exclusive) ∈ t l → ∀ holder ∈ t l, holder = (c, .exclusive)

theorem mem_drop : (d, n) ∈ t.drop gone k ↔ (d, n) ∈ t k ∧ gone d = false := by
  simp only [Table.drop, List.mem_filter, Bool.not_eq_true']

/-- What is not granted conflicts with a holder. -/
theorem exists_of_not_grants (h : t.grants l m = false) : ∃ d n, (d, n) ∈ t l ∧ (m = .exclusive ∨ n = .exclusive) := by
  cases m with
  | shared =>
    simp only [Table.grants, List.all_eq_false, decide_eq_true_eq] at h
    obtain ⟨⟨d, n⟩, hmem, hn⟩ := h
    cases n with
    | shared => exact absurd rfl hn
    | exclusive => exact ⟨d, .exclusive, hmem, .inr rfl⟩
  | exclusive =>
    have hne : t l ≠ [] := by
      intro heq
      simp only [Table.grants, heq, List.isEmpty_nil] at h
      cases h
    obtain ⟨⟨d, n⟩, hmem⟩ := List.exists_mem_of_ne_nil _ hne
    exact ⟨d, n, hmem, .inl rfl⟩

theorem Sound.drop (h : Sound t) : Sound (t.drop gone) := fun k d hd holder hh =>
  h k d (mem_drop.mp hd).1 holder (mem_drop.mp hh).1

/-- An exclusive holder shares its lock with nobody else. -/
theorem Sound.eq_of_mem (h : Sound t) (hc : (c, .exclusive) ∈ t l) (hd : (d, n) ∈ t l) : d = c :=
  congrArg Prod.fst (h l c hc (d, n) hd)

section Changes

variable [DecidableEq L]

theorem mem_acquire : (d, n) ∈ t.acquire l c m k ↔ k = l ∧ d = c ∧ n = m ∨ (d, n) ∈ t k := by
  by_cases hk : k = l
  · subst hk
    simp only [Table.acquire, update_self, List.mem_cons, Prod.mk.injEq, true_and]
  · simp only [Table.acquire, update_of_ne hk, hk, false_and, false_or]

theorem Sound.acquire (h : Sound t) (hg : t.grants l m = true) : Sound (t.acquire l c m) := by
  intro k d hd holder hh
  by_cases hk : k = l
  · subst hk
    cases m with
    | shared =>
      -- every holder is shared, so none is exclusive
      simp only [Table.grants, List.all_eq_true, decide_eq_true_eq] at hg
      rcases mem_acquire.mp hd with ⟨-, -, hmode⟩ | hd
      · cases hmode
      · cases hg _ hd
    | exclusive =>
      simp only [Table.grants, List.isEmpty_iff] at hg
      simp only [Table.acquire, update_self, hg, List.mem_singleton] at hd hh
      rw [hh, hd]
  · simp only [Table.acquire, update_of_ne hk] at hd hh
    exact h k d hd holder hh

variable [DecidableEq ι]

theorem mem_release : (d, n) ∈ t.release l c k ↔ (d, n) ∈ t k ∧ (k = l → d ≠ c) := by
  by_cases hk : k = l
  · subst hk
    simp only [Table.release, update_self, List.mem_filter, decide_eq_true_eq, true_imp_iff]
  · simp only [Table.release, update_of_ne hk, hk, false_imp_iff, and_true]

theorem Sound.release (h : Sound t) : Sound (t.release l c) := fun k d hd holder hh =>
  h k d (mem_release.mp hd).1 holder (mem_release.mp hh).1

end Changes

/-- The table says of every party what its state says. -/
def Agrees (t : Table L ι) (own : σ → List (L × Mode)) (state : ι → σ) : Prop :=
  ∀ l c m, (c, m) ∈ t l ↔ (l, m) ∈ own (state c)

variable {own : σ → List (L × Mode)} {state : ι → σ} {s : σ}

/-- Parties that die own nothing. -/
theorem Agrees.drop {dead : σ} (h : Agrees t own state) (hdead : own dead = []) :
    Agrees (t.drop gone) own fun c => if gone c then dead else state c := by
  intro k d n
  rw [mem_drop, h k d n]
  cases hg : gone d with
  | true => simp only [hg, Bool.true_eq_false, and_false, if_true, hdead, List.not_mem_nil]
  | false => simp only [hg, and_true, Bool.false_eq_true, if_false]

variable [DecidableEq ι]

/-- A party that owns as much as before moves. -/
theorem Agrees.move (h : Agrees t own state) (hs : ∀ x, x ∈ own s ↔ x ∈ own (state c)) : Agrees t own (update state c s) := by
  intro l d m
  by_cases hd : d = c
  · subst hd
    rw [update_self, hs]
    exact h l d m
  · rw [update_of_ne hd]
    exact h l d m

variable [DecidableEq L]

/-- A party that acquires a lock moves to own it. -/
theorem Agrees.acquire (h : Agrees t own state) (hs : ∀ x, x ∈ own s ↔ x = (l, m) ∨ x ∈ own (state c)) :
    Agrees (t.acquire l c m) own (update state c s) := by
  intro k d n
  rw [mem_acquire]
  by_cases hd : d = c
  · subst hd
    rw [update_self, hs, h k d n, Prod.mk.injEq]
    simp only [true_and]
  · rw [update_of_ne hd, h k d n]
    simp only [hd, false_and, and_false, false_or]

/-- A party that releases a lock moves to own the others. -/
theorem Agrees.release (h : Agrees t own state) (hs : ∀ x, x ∈ own s ↔ x ∈ own (state c) ∧ x.1 ≠ l) :
    Agrees (t.release l c) own (update state c s) := by
  intro k d n
  rw [mem_release]
  by_cases hd : d = c
  · subst hd
    rw [update_self, hs, h k d n]
    simp only [ne_eq, not_true_eq_false, imp_false]
  · rw [update_of_ne hd, h k d n]
    simp only [ne_eq, hd, not_false_eq_true, implies_true, and_true]

end SparkRing.LockTable
