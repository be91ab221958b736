import SparkRing.LaunchItems
import SparkRing.PostingWindows

/-!
# Items of a message

A message travels as items of at most one slot, at least one; an item's header holds its
bytes, and on the last item a mark and the message's bytes modulo 16. The lanes of a
channel carry stripes of whole packs of every item.
-/

namespace SparkRing.Channel

open PostingWindows (laneSplit)

/-- Bytes rounded up to whole packs. -/
def padded (nbytes : ℕ) : ℕ := (nbytes + 15) / 16 * 16

/-- Items of a message. -/
def items (slotBytes nbytes : ℕ) : ℕ := max 1 ((padded nbytes + slotBytes - 1) / slotBytes)

def itemPacks (slotBytes nbytes i : ℕ) : ℕ := min (slotBytes / 16) (padded nbytes / 16 - i * (slotBytes / 16))

def itemHeader (slotBytes nbytes i : ℕ) : ℕ :=
  itemPacks slotBytes nbytes i * 16 + if i = items slotBytes nbytes - 1 then 2 ^ 31 + nbytes % 16 else 0

/-- The bytes a header holds, in its bits 4 to 29. -/
def headerBytes (header : ℕ) : ℕ := header / 16 % 2 ^ 26 * 16

/-- The stripe of a lane: its first byte in the item and its bytes. -/
def stripe (lanes lane bytes : ℕ) : ℕ × ℕ := ((laneSplit (bytes / 16) lanes lane).1 * 16, (laneSplit (bytes / 16) lanes lane).2 * 16)

theorem items_pos (slotBytes nbytes : ℕ) : 0 < items slotBytes nbytes := Nat.le_max_left 1 _

/-- Every byte of a message is one of an item. -/
theorem byte_item {j : ℕ} (hslot : slotBytes % 16 = 0) (hpos : 0 < slotBytes) (hj : j < nbytes) :
    j / slotBytes < items slotBytes nbytes ∧ j % slotBytes < itemPacks slotBytes nbytes (j / slotBytes) * 16 := by
  have hpadded : nbytes ≤ padded nbytes := by
    simp only [padded]
    omega
  have hmod := Nat.mod_lt j hpos
  have hdiv := Nat.div_add_mod j slotBytes
  constructor
  · refine lt_of_lt_of_le ?_ (Nat.le_max_right _ _)
    rw [Nat.div_lt_iff_lt_mul hpos]
    have hceil := Nat.div_add_mod (padded nbytes + slotBytes - 1) slotBytes
    have hrest := Nat.mod_lt (padded nbytes + slotBytes - 1) hpos
    rw [Nat.mul_comm]
    omega
  obtain ⟨packs, rfl⟩ : ∃ packs, slotBytes = packs * 16 := ⟨slotBytes / 16, by omega⟩
  simp only [itemPacks, Nat.mul_div_cancel _ (show 0 < 16 by decide)]
  have hmul : packs * 16 * (j / (packs * 16)) = j / (packs * 16) * packs * 16 := by
    rw [Nat.mul_comm, Nat.mul_assoc]
  have hall : padded nbytes / 16 * 16 = padded nbytes := by
    simp only [padded]
    omega
  rcases Nat.le_total packs (padded nbytes / 16 - j / (packs * 16) * packs) with hle | hle
  · rw [Nat.min_eq_left hle]
    exact hmod
  · omega

theorem itemPacks_le : itemPacks slotBytes nbytes i ≤ slotBytes / 16 := Nat.min_le_left _ _

/-- A header holds its item's bytes. -/
theorem headerBytes_itemHeader (hslot : slotBytes ≤ 2 ^ 29) :
    headerBytes (itemHeader slotBytes nbytes i) = itemPacks slotBytes nbytes i * 16 := by
  have hpacks : itemPacks slotBytes nbytes i ≤ slotBytes / 16 := itemPacks_le
  simp only [headerBytes, itemHeader]
  split <;> omega

theorem laneSplit_zero (packs lanes : ℕ) : (laneSplit packs lanes 0).1 = 0 := by
  simp only [laneSplit, Nat.zero_mul, Nat.zero_add]
  split <;> omega

/-- A lane's stripe begins where the one before ends. -/
theorem laneSplit_succ (packs lanes lane : ℕ) :
    (laneSplit packs lanes (lane + 1)).1 = (laneSplit packs lanes lane).1 + (laneSplit packs lanes lane).2 := by
  simp only [laneSplit, Nat.add_mul, Nat.one_mul]
  split <;> split <;> omega

theorem laneSplit_all {lanes : ℕ} (h : 0 < lanes) : (laneSplit packs lanes lanes).1 = packs := by
  have hdiv := Nat.div_add_mod packs lanes
  have hmod := Nat.mod_lt packs h
  simp only [laneSplit, if_neg (Nat.not_lt.mpr hmod.le)]
  omega

theorem laneSplit_mono {lanes : ℕ} {l m : ℕ} (h : l < m) :
    (laneSplit packs lanes l).1 + (laneSplit packs lanes l).2 ≤ (laneSplit packs lanes m).1 := by
  induction m with
  | zero => cases h
  | succ m ih =>
    rw [laneSplit_succ]
    rcases Nat.lt_or_ge l m with hlt | hge
    · exact (ih hlt).trans (Nat.le_add_right _ _)
    · obtain rfl : l = m := by omega
      exact le_rfl

/-- Every pack of an item is in a lane's stripe. -/
theorem laneSplit_cover {lanes j : ℕ} (h : 0 < lanes) (hj : j < packs) : ∃ lane < lanes, (laneSplit packs lanes lane).1 ≤ j ∧
      j < (laneSplit packs lanes lane).1 + (laneSplit packs lanes lane).2 := by
  by_contra hnone
  have hall : ∀ lane ≤ lanes, (laneSplit packs lanes lane).1 ≤ j := by
    intro lane
    induction lane with
    | zero =>
      intro _
      rw [laneSplit_zero]
      exact Nat.zero_le j
    | succ lane ih =>
      intro hlane
      rw [laneSplit_succ]
      by_contra hlt
      exact hnone ⟨lane, by omega, ih (by omega), by omega⟩
  have hend := hall lanes le_rfl
  rw [laneSplit_all h] at hend
  omega

theorem laneSplit_end {lanes lane : ℕ} (h : lane < lanes) : (laneSplit packs lanes lane).1 + (laneSplit packs lanes lane).2 ≤ packs := by
  have hend : (laneSplit packs lanes lane).1 + (laneSplit packs lanes lane).2 ≤ (laneSplit packs lanes lanes).1 :=
    laneSplit_mono h
  rwa [laneSplit_all (by omega)] at hend

variable {lanes lane other bytes j slotBytes packs nbytes i : ℕ}

/-- Every byte of an item of whole packs is in a lane's stripe. -/
theorem stripe_cover (h : 0 < lanes) (hbytes : bytes % 16 = 0) (hj : j < bytes) :
    ∃ lane < lanes, (stripe lanes lane bytes).1 ≤ j ∧ j < (stripe lanes lane bytes).1 + (stripe lanes lane bytes).2 := by
  obtain ⟨lane, hlane, hlow, hhigh⟩ := laneSplit_cover h (show j / 16 < bytes / 16 by omega)
  refine ⟨lane, hlane, ?_, ?_⟩
  · simp only [stripe]
    omega
  · simp only [stripe]
    omega

theorem stripe_end (h : lane < lanes) : (stripe lanes lane bytes).1 + (stripe lanes lane bytes).2 ≤ bytes := by
  have hend : (laneSplit (bytes / 16) lanes lane).1 + (laneSplit (bytes / 16) lanes lane).2 ≤ bytes / 16 :=
    laneSplit_end h
  simp only [stripe]
  omega

theorem stripe_apart (h : lane ≠ other) (hj : (stripe lanes lane bytes).1 ≤ j)
    (hj' : j < (stripe lanes lane bytes).1 + (stripe lanes lane bytes).2) :
    ¬((stripe lanes other bytes).1 ≤ j ∧ j < (stripe lanes other bytes).1 + (stripe lanes other bytes).2) := by
  simp only [stripe] at *
  rcases Nat.lt_or_gt_of_ne h with hlt | hgt
  · have hmono : (laneSplit (bytes / 16) lanes lane).1 + (laneSplit (bytes / 16) lanes lane).2 ≤
        (laneSplit (bytes / 16) lanes other).1 := laneSplit_mono hlt
    omega
  have hmono : (laneSplit (bytes / 16) lanes other).1 + (laneSplit (bytes / 16) lanes other).2 ≤
      (laneSplit (bytes / 16) lanes lane).1 := laneSplit_mono hgt
  omega

end SparkRing.Channel
