import Mathlib.Tactic.Linarith

/-!
# Sequence numbers in 32-bit words

Counters run without bound; what is stored and compared is their low 32 bits.
Two counters less than 2^31 apart compare as their words do by signed
difference, and words less than 2^32 apart are equal only if the counters are.
-/

namespace SparkRing.SequenceWord

/-- Values of a word. -/
def modulus : ℕ := 2 ^ 32

/-- The word that stores a counter. -/
def word (n : ℕ) : ℕ := n % modulus

/-- Signed difference of two words, as a 32-bit integer. -/
def gap (a b : ℕ) : ℤ := Int.bmod ((a : ℤ) - b) modulus

/-- Unsigned difference of two words. -/
def ahead (a b : ℕ) : ℕ := (a + (modulus - word b)) % modulus

/-- Words of equal value. -/
def sameWord (a b : ℕ) : Bool := word a == word b

variable {a b : ℕ}

theorem sameWord_iff : sameWord a b = true ↔ a % 2 ^ 32 = b % 2 ^ 32 := by
  simp [sameWord, word, modulus]

@[simp] theorem sameWord_self (a : ℕ) : sameWord a a = true := by
  simp [sameWord]

/-- Counters less than 2^32 apart have equal words only when they are equal. -/
theorem eq_of_sameWord (h : sameWord a b = true) (hab : a < b + 2 ^ 32) (hba : b < a + 2 ^ 32) : a = b := by
  rw [sameWord_iff] at h
  omega

/-- The signed difference of near counters is their difference. -/
theorem gap_of_near (hab : a < b + 2 ^ 31) (hba : b ≤ a + 2 ^ 31) : gap a b = (a : ℤ) - b := by
  simp only [gap, modulus, Int.bmod]
  omega

/-- The unsigned difference of near counters is their difference. -/
theorem ahead_of_near (hba : b ≤ a) (hab : a < b + 2 ^ 32) : ahead a b = a - b := by
  simp only [ahead, word, modulus]
  omega

end SparkRing.SequenceWord
