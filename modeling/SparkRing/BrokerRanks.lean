import Mathlib.Data.Finset.Card
import SparkRing.BootstrapBroker

/-!
# The ranks of a broker

The slots of a root hold distinct ranks of its group, and the count of joined connections is
their number; so a group that counts as complete has a connection of every rank.
-/

namespace SparkRing.BootstrapBroker

open WireWords (Bytes get32)
open Function
open Finset (mem_filter mem_range)

/-- A slot holds a rank's connection. -/
def joinedAt (ranks : ℕ → Option (Option ℕ)) (i : ℕ) : Bool := (ranks i).join.isSome

/-- The ranks in the slots, and their count. -/
structure Sound (nranks joined : ℕ) (ranks : ℕ → Option (Option ℕ)) : Prop where
  slot_lt : ∀ i, ranks i ≠ none → i < maxPending
  rank_lt : ∀ i k, ranks i = some (some k) → k < nranks
  distinct : ∀ i j k, ranks i = some (some k) → ranks j = some (some k) → i = j
  joined_eq : joined = ((Finset.range maxPending).filter fun i => joinedAt ranks i = true).card

variable {nranks joined i j k : ℕ} {ranks : ℕ → Option (Option ℕ)}

theorem joinedAt_iff : joinedAt ranks i = true ↔ ∃ k, ranks i = some (some k) := by
  unfold joinedAt
  cases ranks i with
  | none => simp
  | some rank => cases rank <;> simp

/-- A slot becomes free. -/
theorem Sound.vacate (h : Sound nranks joined ranks) (i : ℕ) :
    Sound nranks (if joinedAt ranks i = true then joined - 1 else joined) (update ranks i none) := by
  have hold : ∀ {j : ℕ} {rank : Option ℕ}, update ranks i none j = some rank → j ≠ i ∧ ranks j = some rank := by
    intro j rank hj
    by_cases hji : j = i
    · rw [hji, update_self] at hj
      cases hj
    · rw [update_of_ne hji] at hj
      exact ⟨hji, hj⟩
  constructor
  · intro j hj
    obtain ⟨rank, hrank⟩ := Option.ne_none_iff_exists'.mp hj
    exact h.slot_lt j (by rw [(hold hrank).2]; exact nofun)
  · exact fun j k hj => h.rank_lt j k (hold hj).2
  · exact fun j j' k hj hj' => h.distinct j j' k (hold hj).2 (hold hj').2
  have herase : ((Finset.range maxPending).filter fun j => joinedAt (update ranks i none) j = true) =
      ((Finset.range maxPending).filter fun j => joinedAt ranks j = true).erase i := by
    ext j
    rw [Finset.mem_erase, mem_filter, mem_filter]
    by_cases hji : j = i
    · simp [hji, joinedAt]
    · simp [hji, joinedAt]
  rw [herase]
  by_cases hjoined : joinedAt ranks i = true
  · rw [if_pos hjoined, Finset.card_erase_of_mem, h.joined_eq]
    obtain ⟨k, hk⟩ := joinedAt_iff.mp hjoined
    exact mem_filter.mpr ⟨mem_range.mpr (h.slot_lt i (by rw [hk]; exact nofun)), hjoined⟩
  have hmem : i ∉ (Finset.range maxPending).filter fun j => joinedAt ranks j = true :=
    fun hmem => hjoined (mem_filter.mp hmem).2
  rw [if_neg hjoined, Finset.erase_eq_of_notMem hmem, h.joined_eq]

/-- A free slot gets a connection without a rank. -/
theorem Sound.accept (h : Sound nranks joined ranks) (hi : i < maxPending) (hfree : ranks i = none) :
    Sound nranks joined (update ranks i (some none)) := by
  have hold : ∀ {j k : ℕ}, update ranks i (some none) j = some (some k) → ranks j = some (some k) := by
    intro j k hj
    by_cases hji : j = i
    · rw [hji, update_self] at hj
      cases hj
    · rwa [update_of_ne hji] at hj
  constructor
  · intro j hj
    by_cases hji : j = i
    · exact hji ▸ hi
    · exact h.slot_lt j (by rwa [update_of_ne hji] at hj)
  · exact fun j k hj => h.rank_lt j k (hold hj)
  · exact fun j j' k hj hj' => h.distinct j j' k (hold hj) (hold hj')
  rw [h.joined_eq]
  congr 1
  refine Finset.filter_congr fun j _ => ?_
  by_cases hji : j = i
  · simp [hji, joinedAt, hfree]
  · simp [joinedAt, update_of_ne hji]

/-- A connection joins as a rank that no other one has. -/
theorem Sound.join {nranks' : ℕ} (h : Sound nranks joined ranks) (hi : ranks i = some none) (hk : k < nranks')
    (hnew : ∀ j, ranks j ≠ some (some k)) (hsize : nranks = 0 ∨ nranks = nranks') :
    Sound nranks' (joined + 1) (update ranks i (some (some k))) := by
  have hold : ∀ {j m : ℕ}, update ranks i (some (some k)) j = some (some m) → j = i ∧ m = k ∨ j ≠ i ∧ ranks j = some (some m) := by
    intro j m hj
    by_cases hji : j = i
    · rw [hji, update_self, Option.some.injEq, Option.some.injEq] at hj
      exact Or.inl ⟨hji, hj.symm⟩
    · rw [update_of_ne hji] at hj
      exact Or.inr ⟨hji, hj⟩
  have hlt : i < maxPending := h.slot_lt i (by rw [hi]; exact nofun)
  constructor
  · intro j hj
    by_cases hji : j = i
    · exact hji ▸ hlt
    · exact h.slot_lt j (by rwa [update_of_ne hji] at hj)
  · intro j m hj
    rcases hold hj with ⟨_, rfl⟩ | ⟨_, hj⟩
    · exact hk
    · have hm := h.rank_lt j m hj
      omega
  · intro j j' m hj hj'
    rcases hold hj with ⟨rfl, rfl⟩ | ⟨hji, hold₁⟩
    · rcases hold hj' with ⟨rfl, _⟩ | ⟨_, hold₂⟩
      · rfl
      · exact absurd hold₂ (hnew j')
    rcases hold hj' with ⟨_, rfl⟩ | ⟨_, hold₂⟩
    · exact absurd hold₁ (hnew j)
    · exact h.distinct j j' m hold₁ hold₂
  have hinsert : ((Finset.range maxPending).filter fun j => joinedAt (update ranks i (some (some k))) j = true) =
      insert i ((Finset.range maxPending).filter fun j => joinedAt ranks j = true) := by
    ext j
    rw [Finset.mem_insert, mem_filter, mem_filter]
    by_cases hji : j = i
    · simp [hji, joinedAt, hlt]
    · simp [hji, joinedAt]
  rw [hinsert, Finset.card_insert_of_notMem, h.joined_eq]
  intro hmem
  obtain ⟨m, hm⟩ := joinedAt_iff.mp (mem_filter.mp hmem).2
  rw [hi] at hm
  cases hm

/-- Where as many ranks joined as the group has, every one did. -/
theorem Sound.all_held (h : Sound nranks nranks ranks) (hk : k < nranks) : ∃ i, ranks i = some (some k) := by
  have hrank : ∀ i ∈ (Finset.range maxPending).filter (fun i => joinedAt ranks i = true), ranks i = some (some ((ranks i).join.getD 0)) := by
    intro i hi
    obtain ⟨m, hm⟩ := joinedAt_iff.mp (mem_filter.mp hi).2
    rw [hm]
    rfl
  obtain ⟨i, hi, hik⟩ := Finset.surj_on_of_inj_on_of_card_le (t := Finset.range nranks) (fun i _ => (ranks i).join.getD 0)
    (fun i hi => mem_range.mpr (h.rank_lt i _ (hrank i hi)))
    (fun i j hi hj hij => h.distinct i j _ (hrank i hi) (by rw [hij]; exact hrank j hj))
    (by rw [Finset.card_range]; exact h.joined_eq.le) k (mem_range.mpr hk)
  exact ⟨i, by rw [hrank i hi, hik]⟩

end SparkRing.BootstrapBroker
