import SparkRing.ChannelLines

/-!
# Items in the receive slots

The writes of a lane land in order. Until an item is released, its stripe on every lane
that delivered it stays in its slot, and so does its header once the first lane delivered
it: a write of a later item of the slot is posted only after a credit for it.
-/

namespace SparkRing.Channel

open LaunchItems Function

variable {β : Type*} {C : Config} {start g : ℕ} {message : ℕ → List β} {R : Receiver β} {d : ℕ → Place} {l : ℕ} {q : Place}

/-- Every item from the start on is one of a launch. -/
theorem exists_number (C : Config) (message : ℕ → List β) (hg : start ≤ g) :
    ∃ k i, i < C.count message k ∧ C.number start message k i = g := exists_item C.count_pos hg

theorem number_unique {k k' i i' : ℕ} (hi : i < C.count message k) (hi' : i' < C.count message k')
    (h : C.number start message k i = C.number start message k' i') : k = k' ∧ i = i' := item_unique hi hi' h

/-- Items of one slot between the items released and a ring ahead are the same. -/
theorem same_item {a b : ℕ} (h : C.index a = C.index b) (ha : R.released ≤ a) (hb : R.released ≤ b)
    (ha' : a < R.released + C.slots) (hb' : b < R.released + C.slots) : a = b :=
  Config.eq_of_index h (by omega) (by omega)

variable [Zero β]

/-- What holds of the receive slots, where the lanes have delivered up to the places `d`. -/
structure Landing (C : Config) (start : ℕ) (message : ℕ → List β) (R : Receiver β) (d : ℕ → Place) : Prop where
  start_le : ∀ l < C.lanes, start ≤ (d l).item
  /-- Lanes are a ring ahead of the items released at most. -/
  place_le : ∀ l < C.lanes, (d l).item ≤ R.released + C.slots
  /-- An item that began to land had its slot freed. -/
  begun : ∀ l < C.lanes, 0 < (d l).bytes ∨ (d l).header = true → (d l).item < R.released + C.slots
  /-- A flag is the start word or the tag of an item delivered on its lane. -/
  flag_form : ∀ m, ∀ l < C.lanes, R.flag m l = start ∨
    ∃ g, start ≤ g ∧ C.index g = m ∧ g < (d l).item ∧ R.flag m l = g + 1
  /-- The flag of a slot has reached the tags of its items delivered. -/
  flag_le : ∀ l < C.lanes, ∀ g, start ≤ g → g < (d l).item → g + 1 ≤ R.flag (C.index g) l
  /-- Stripes delivered stay until their item is released. -/
  held : ∀ l < C.lanes, ∀ k i, i < C.count message k → R.released ≤ C.number start message k i →
    C.number start message k i < (d l).item →
    ∀ j, (C.stripeOf message l k i).1 ≤ j → j < (C.stripeOf message l k i).1 + (C.stripeOf message l k i).2 →
      R.slot (C.index (C.number start message k i)) j = itemBytes C.slotBytes (message k) i j
  /-- And so do the bytes of a stripe that is landing. -/
  part : ∀ l < C.lanes, ∀ k i, i < C.count message k → C.number start message k i = (d l).item →
    ∀ j, (C.stripeOf message l k i).1 ≤ j → j < (C.stripeOf message l k i).1 + (d l).bytes →
      R.slot (C.index (C.number start message k i)) j = itemBytes C.slotBytes (message k) i j
  /-- No more of a stripe lands than there is. -/
  part_le : ∀ l < C.lanes, ∀ k i, i < C.count message k → C.number start message k i = (d l).item →
    (d l).bytes ≤ (C.stripeOf message l k i).2
  /-- Headers delivered stay until their item is released. -/
  header : ∀ k i, i < C.count message k → R.released ≤ C.number start message k i →
    C.number start message k i < (d 0).item ∨ C.number start message k i = (d 0).item ∧ (d 0).header = true →
      R.header (C.index (C.number start message k i)) = itemHeader C.slotBytes (message k).length i

namespace Landing

theorem initial (C : Config) (start : ℕ) (message : Bool → ℕ → List β) (c : Bool) :
    Landing C start (message c) ((Channel.initial C start message).receiver c) fun _ => ⟨start, 0, false⟩ where
  start_le _ _ := le_rfl
  place_le _ _ := Nat.le_add_right _ _
  begun _ _ h := by
    rcases h with h | h
    · exact absurd h (Nat.lt_irrefl 0)
    · cases h
  flag_form _ _ _ := .inl rfl
  flag_le _ _ g hg hlt := absurd hlt (Nat.not_lt.mpr hg)
  held _ _ k i _ _ hlt := absurd hlt (Nat.not_lt.mpr start_le_number)
  part _ _ k i _ _ j hlow hhigh := absurd hhigh (Nat.not_lt.mpr hlow)
  part_le _ _ _ _ _ _ := Nat.zero_le _
  header k i _ _ h := by
    rcases h with h | h
    · exact absurd h (Nat.not_lt.mpr start_le_number)
    · cases h.2

section

variable (h : Landing C start message R d)

include h

/-- The slots do not depend on the rest of the receiving end. -/
theorem congr {R' : Receiver β} (hslot : R'.slot = R.slot) (hflag : R'.flag = R.flag)
    (hheader : R'.header = R.header) (hreleased : R.released ≤ R'.released) : Landing C start message R' d := { h with
  place_le l hl := (h.place_le l hl).trans (Nat.add_le_add_right hreleased _)
  begun l hl hb := (h.begun l hl hb).trans_le (Nat.add_le_add_right hreleased _)
  flag_form := hflag ▸ h.flag_form
  flag_le := hflag ▸ h.flag_le
  held l hl k i hi hle := hslot ▸ h.held l hl k i hi (hreleased.trans hle)
  part := hslot ▸ h.part
  header k i hi hle := hheader ▸ h.header k i hi (hreleased.trans hle) }

theorem data (hreleased : ∀ l < C.lanes, R.released ≤ (d l).item) (hl : l < C.lanes)
    {m offset length : ℕ} (hadvance : C.Advance start message l (d l) (.data g m offset length) q)
    (hfreed : (d l).item < R.released + C.slots) {S : Sender β}
    (hsource : ∀ k i, i < C.count message k → C.number start message k i = (d l).item → ∀ j,
      j < itemPacks C.slotBytes (message k).length i * 16 → S.slot (C.index (d l).item) j = itemBytes C.slotBytes (message k) i j) :
    Landing C start message (R.land S l (.data g m offset length)) (update d l q) := by
  obtain ⟨rfl, rfl, rfl, -, hfits⟩ := hadvance
  obtain ⟨k₀, i₀, hi₀, hg₀⟩ := exists_number C message (h.start_le l hl)
  obtain ⟨hoffset, hend⟩ := hfits k₀ i₀ hi₀ hg₀
  have hitem : ∀ n, (update d l ⟨(d l).item, (d l).bytes + length, (d l).header⟩ n).item = (d n).item := by
    intro n
    rw [update_apply]
    split
    case isTrue hn => rw [hn]
    case isFalse => rfl
  have hheader : ∀ n, (update d l ⟨(d l).item, (d l).bytes + length, (d l).header⟩ n).header = (d n).header := by
    intro n
    rw [update_apply]
    split
    case isTrue hn => rw [hn]
    case isFalse => rfl
  -- another lane's stripe of the item, or another item of the slots
  have hother : ∀ n < C.lanes, ∀ k i, i < C.count message k → R.released ≤ C.number start message k i →
      C.number start message k i < R.released + C.slots → (C.number start message k i = (d l).item → n ≠ l) →
      ∀ j, (C.stripeOf message n k i).1 ≤ j → j < (C.stripeOf message n k i).1 + (C.stripeOf message n k i).2 →
      writeBytes R.slot (C.index (d l).item) offset length (S.slot (C.index (d l).item)) (C.index (C.number start message k i)) j =
        R.slot (C.index (C.number start message k i)) j := by
    intro n _ k i hi hle hlt hne j hlow hhigh
    by_cases hidx : C.index (C.number start message k i) = C.index (d l).item
    · have hsame := same_item hidx hle (hreleased l hl) hlt hfreed
      obtain ⟨rfl, rfl⟩ := number_unique hi hi₀ (hsame.trans hg₀.symm)
      refine writeBytes_out fun hin => ?_
      refine stripe_apart (hne hsame) hlow hhigh ⟨?_, ?_⟩
      · simp only [Config.stripeOf] at hoffset
        omega
      · simp only [Config.stripeOf] at hoffset hend
        omega
    · rw [writeBytes_of_ne hidx]
  constructor
  case start_le =>
    intro n hn
    rw [hitem]
    exact h.start_le n hn
  case place_le =>
    intro n hn
    rw [hitem]
    exact h.place_le n hn
  case begun =>
    intro n hn hb
    rw [hitem]
    by_cases hnl : n = l
    · rw [hnl]
      exact hfreed
    · rw [update_of_ne hnl] at hb
      exact h.begun n hn hb
  case flag_form =>
    intro m n hn
    rw [hitem]
    exact h.flag_form m n hn
  case flag_le =>
    intro n hn
    rw [hitem]
    exact h.flag_le n hn
  case held =>
    intro n hn k i hi hle hlt j hlow hhigh
    rw [hitem] at hlt
    have hcap := h.place_le n hn
    refine (hother n hn k i hi hle (by omega) (fun heq hnl => ?_) j hlow hhigh).trans (h.held n hn k i hi hle hlt j hlow hhigh)
    rw [hnl, heq] at hlt
    exact Nat.lt_irrefl _ hlt
  case part =>
    intro n hn k i hi heq j hlow hhigh
    rw [hitem] at heq
    by_cases hnl : n = l
    · subst hnl
      obtain ⟨rfl, rfl⟩ := number_unique hi hi₀ (heq.trans hg₀.symm)
      rw [update_self] at hhigh
      change writeBytes R.slot (C.index (d n).item) offset length (S.slot (C.index (d n).item)) _ j = _
      rw [heq]
      by_cases hin : offset ≤ j
      · rw [writeBytes_in hin (by dsimp only at hhigh; omega)]
        refine hsource k i hi heq j ?_
        have hstripe := @stripe_end _ _ (itemPacks C.slotBytes (message k).length i * 16) hn
        simp only [Config.stripeOf] at hend hhigh
        omega
      · rw [writeBytes_out fun hj => hin hj.1, ← heq]
        exact h.part n hn k i hi heq j hlow (by omega)
    · rw [update_of_ne hnl] at hhigh
      have hb := h.begun n hn (.inl (by omega))
      have hle := h.part_le n hn k i hi heq
      have hrel := hreleased n hn
      refine (hother n hn k i hi (by omega) (by omega) (fun _ => hnl) j hlow (by omega)).trans (h.part n hn k i hi heq j hlow hhigh)
  case part_le =>
    intro n hn k i hi heq
    rw [hitem] at heq
    by_cases hnl : n = l
    · subst hnl
      obtain ⟨rfl, rfl⟩ := number_unique hi hi₀ (heq.trans hg₀.symm)
      rw [update_self]
      exact hend
    · rw [update_of_ne hnl]
      exact h.part_le n hn k i hi heq
  case header =>
    intro k i hi hle hcase
    rw [hitem, hheader] at hcase
    exact h.header k i hi hle hcase

theorem head (hreleased : ∀ l < C.lanes, R.released ≤ (d l).item) (hl : l < C.lanes)
    {m value : ℕ} (hadvance : C.Advance start message l (d l) (.header g m value) q)
    (hfreed : (d l).item < R.released + C.slots) (S : Sender β) :
    Landing C start message (R.land S l (.header g m value)) (update d l q) := by
  obtain ⟨rfl, rfl, rfl, rfl, hvalue⟩ := hadvance
  have hitem : ∀ n, (update d 0 ⟨(d 0).item, (d 0).bytes, true⟩ n).item = (d n).item := by
    intro n
    rw [update_apply]
    split
    case isTrue hn => rw [hn]
    case isFalse => rfl
  have hbytes : ∀ n, (update d 0 ⟨(d 0).item, (d 0).bytes, true⟩ n).bytes = (d n).bytes := by
    intro n
    rw [update_apply]
    split
    case isTrue hn => rw [hn]
    case isFalse => rfl
  constructor
  case start_le =>
    intro n hn
    rw [hitem]
    exact h.start_le n hn
  case place_le =>
    intro n hn
    rw [hitem]
    exact h.place_le n hn
  case begun =>
    intro n hn hb
    rw [hitem]
    by_cases hn0 : n = 0
    · rw [hn0]
      exact hfreed
    · rw [update_of_ne hn0] at hb
      exact h.begun n hn hb
  case flag_form =>
    intro m n hn
    rw [hitem]
    exact h.flag_form m n hn
  case flag_le =>
    intro n hn
    rw [hitem]
    exact h.flag_le n hn
  case held =>
    intro n hn
    rw [hitem]
    exact h.held n hn
  case part =>
    intro n hn
    rw [hitem, hbytes]
    exact h.part n hn
  case part_le =>
    intro n hn
    rw [hitem, hbytes]
    exact h.part_le n hn
  case header =>
    intro k i hi hle hcase
    rw [hitem] at hcase
    change update R.header (C.index (d 0).item) value (C.index (C.number start message k i)) = _
    have hle' : R.released ≤ C.number start message k i := hle
    by_cases hidx : C.index (C.number start message k i) = C.index (d 0).item
    · have hsame := same_item hidx hle' (hreleased 0 hl) (by omega) hfreed
      rw [hidx, update_self]
      exact hvalue k i hi hsame
    rw [update_of_ne hidx]
    refine h.header k i hi hle (hcase.imp_right fun heq => absurd ?_ hidx)
    rw [heq.1]

/-- A flag lands: its item is delivered on the lane. -/
theorem flag (hl : l < C.lanes) {m tag : ℕ} (hadvance : C.Advance start message l (d l) (.flag g m tag) q)
    (hfreed : (d l).item < R.released + C.slots) (S : Sender β) : Landing C start message (R.land S l (.flag g m tag)) (update d l q) := by
  obtain ⟨rfl, rfl, rfl, rfl, hheaded, hall⟩ := hadvance
  have hself : update d l ⟨(d l).item + 1, 0, false⟩ l = ⟨(d l).item + 1, 0, false⟩ := update_self _ _ _
  have hflag : ∀ m n, (R.land S l (.flag (d l).item (C.index (d l).item) ((d l).item + 1))).flag m n =
      if m = C.index (d l).item ∧ n = l then (d l).item + 1 else R.flag m n := by
    intro m n
    change update R.flag (C.index (d l).item) _ m n = _
    by_cases hm : m = C.index (d l).item
    · rw [hm, update_self, update_apply]
      simp only [true_and]
    · rw [update_of_ne hm, if_neg fun hmn => hm hmn.1]
  constructor
  case start_le =>
    intro n hn
    by_cases hnl : n = l
    · rw [hnl, hself]
      exact Nat.le_succ_of_le (h.start_le l hl)
    · rw [update_of_ne hnl]
      exact h.start_le n hn
  case place_le =>
    intro n hn
    by_cases hnl : n = l
    · rw [hnl, hself]
      exact hfreed
    · rw [update_of_ne hnl]
      exact h.place_le n hn
  case begun =>
    intro n hn hb
    by_cases hnl : n = l
    · rw [hnl, hself] at hb
      rcases hb with hb | hb
      · exact absurd hb (Nat.lt_irrefl 0)
      · cases hb
    · rw [update_of_ne hnl] at hb ⊢
      exact h.begun n hn hb
  case flag_form =>
    intro m n hn
    rw [hflag]
    split
    case isTrue hmn =>
      refine .inr ⟨(d l).item, h.start_le l hl, hmn.1.symm, ?_, rfl⟩
      rw [hmn.2, hself]
      exact Nat.lt_succ_self _
    case isFalse =>
      rcases h.flag_form m n hn with hstart | ⟨g, hg, hidx, hlt, htag⟩
      · exact .inl hstart
      refine .inr ⟨g, hg, hidx, ?_, htag⟩
      by_cases hnl : n = l
      · rw [hnl, hself]
        exact Nat.lt_succ_of_lt (hnl ▸ hlt)
      · rw [update_of_ne hnl]
        exact hlt
  case flag_le =>
    intro n hn g hg hlt
    rw [hflag]
    by_cases hnl : n = l
    · rw [hnl, hself] at hlt
      split
      case isTrue => exact hlt
      case isFalse hne =>
        have hgl : g ≠ (d l).item := fun heq => hne ⟨by rw [heq], hnl⟩
        exact h.flag_le n hn g hg (hnl ▸ (by dsimp only at hlt; omega))
    rw [update_of_ne hnl] at hlt
    rw [if_neg fun hmn => hnl hmn.2]
    exact h.flag_le n hn g hg hlt
  case held =>
    intro n hn k i hi hle hlt j hlow hhigh
    by_cases hnl : n = l
    · subst hnl
      rw [hself] at hlt
      rcases Nat.lt_or_ge (C.number start message k i) (d n).item with hlt' | hge
      · exact h.held n hn k i hi hle hlt' j hlow hhigh
      have heq : C.number start message k i = (d n).item := by
        dsimp only at hlt
        omega
      refine h.part n hn k i hi heq j hlow (hhigh.trans_le ?_)
      exact Nat.add_le_add_left (hall k i hi heq) _
    · rw [update_of_ne hnl] at hlt
      exact h.held n hn k i hi hle hlt j hlow hhigh
  case part =>
    intro n hn k i hi heq j hlow hhigh
    by_cases hnl : n = l
    · rw [hnl, hself] at hhigh
      exact absurd (hnl ▸ hlow) (Nat.not_le.mpr hhigh)
    · rw [update_of_ne hnl] at heq hhigh
      exact h.part n hn k i hi heq j hlow hhigh
  case part_le =>
    intro n hn k i hi heq
    by_cases hnl : n = l
    · rw [hnl, hself]
      exact Nat.zero_le _
    · rw [update_of_ne hnl] at heq ⊢
      exact h.part_le n hn k i hi heq
  case header =>
    intro k i hi hle hcase
    refine h.header k i hi hle ?_
    by_cases hl0 : 0 = l
    · subst hl0
      rw [hself] at hcase
      rcases hcase with hlt | ⟨-, hfalse⟩
      · rcases Nat.lt_or_ge (C.number start message k i) (d 0).item with hlt' | hge
        · exact .inl hlt'
        refine .inr ⟨?_, hheaded rfl⟩
        dsimp only at hlt
        omega
      · cases hfalse
    · rw [update_of_ne hl0] at hcase
      exact hcase

end

end Landing

end SparkRing.Channel
