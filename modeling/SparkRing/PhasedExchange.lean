import Mathlib.Data.List.Basic

/-!
# Phased exchanges

A group runs one operation as a fixed number of phases. In every phase each rank
writes a range of its message to some peers and waits for what those peers write
to it; each rank has one word for a namespace and a peer in which a write of that
peer is announced. A rank that passed all its waits has heard, over the peers of
its peers, from every rank of the group.
-/

namespace SparkRing.PhasedExchange

/-- Ranks that a rank, once it passed `base + k` waits, knows to have passed `base`. -/
def heard (peers : ℕ → ℕ → List ℕ) (base : ℕ) : ℕ → ℕ → List ℕ
  | 0, r => [r]
  | k + 1, r => heard peers base k r ++ (peers r (base + k)).flatMap (heard peers base k)

/-- A well-formed exchange of a group: what each rank writes in each phase. -/
structure Schedule (world : ℕ) where
  /-- Phases of the exchange. -/
  phases : ℕ
  /-- The ranks a rank writes to in a phase, and waits for. -/
  peers : ℕ → ℕ → List ℕ
  /-- The namespace in which a phase is announced. -/
  ns : ℕ → ℕ
  /-- First unit and number of units a rank writes to a peer in a phase. -/
  range : ℕ → ℕ → ℕ → ℕ × ℕ
  /-- There is a first phase. -/
  phases_pos : 0 < phases
  /-- Every rank writes to some rank in every phase. -/
  peers_ne : ∀ r < world, ∀ k < phases, peers r k ≠ []
  /-- Peers are ranks of the group. -/
  peers_lt : ∀ r < world, ∀ k < phases, ∀ p ∈ peers r k, p < world
  /-- No rank writes to itself. -/
  peers_irrefl : ∀ r < world, ∀ k < phases, r ∉ peers r k
  /-- Two ranks write to each other in the same phases. -/
  peers_symm : ∀ r < world, ∀ k < phases, ∀ p ∈ peers r k, r ∈ peers p k
  /-- A rank writes to a peer at most once per phase. -/
  peers_nodup : ∀ r < world, ∀ k < phases, (peers r k).Nodup
  /-- Two phases of the same two ranks are announced in different namespaces. -/
  ns_inj : ∀ r < world, ∀ k < phases, ∀ j < phases, ∀ p, p ∈ peers r k → p ∈ peers r j → ns k = ns j → k = j
  /-- There are two namespaces. -/
  ns_lt : ∀ k < phases, ns k < 2
  /-- Two phases of the same two ranks write different units. -/
  disjoint : ∀ r < world, ∀ k < phases, ∀ j < phases, ∀ p, p ∈ peers r k → p ∈ peers r j → k ≠ j →
    (range r k p).1 + (range r k p).2 ≤ (range r j p).1 ∨ (range r j p).1 + (range r j p).2 ≤ (range r k p).1
  /-- A rank that passed every wait has heard of every rank. -/
  full : ∀ r < world, ∀ q < world, q ∈ heard peers 0 phases r

variable {peers : ℕ → ℕ → List ℕ} {base k j r q : ℕ}

theorem heard_mono (hkj : k ≤ j) (h : q ∈ heard peers base k r) : q ∈ heard peers base j r := by
  induction j with
  | zero => simpa [Nat.le_zero.mp hkj] using h
  | succ j ih =>
    rcases Nat.lt_or_ge j k with hlt | hle
    · have : k = j + 1 := by omega
      rwa [← this]
    · simp only [heard, List.mem_append]
      exact .inl (ih hle)

/-- Dissemination: if passing a wait shows that the peers waited for are as far as
the phase waited for, a rank that passed `base + k` waits knows that every rank heard
passed `base`. -/
theorem passed_of_heard (passed : ℕ → ℕ → Prop) (step : ∀ r i, i < j → passed r (i + 1) → passed r i ∧ ∀ p ∈ peers r i, passed p i)
    (hk : base + k ≤ j) (h : passed r (base + k)) (hq : q ∈ heard peers base k r) : passed q base := by
  induction k generalizing r with
  | zero =>
    simp only [heard, List.mem_singleton] at hq
    exact hq ▸ h
  | succ k ih =>
    have hp := step r (base + k) (by omega) h
    simp only [heard, List.mem_append, List.mem_flatMap] at hq
    rcases hq with hq | ⟨p, hp', hq⟩
    · exact ih (by omega) hp.1 hq
    · exact ih (by omega) (hp.2 p hp') hq

end SparkRing.PhasedExchange
