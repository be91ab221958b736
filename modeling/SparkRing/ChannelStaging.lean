import SparkRing.Channel

/-!
# Staging of a channel's items

The blocks of a send launch stage items out of order, each in the slot of its number. An
item is staged when its slot's ready word has reached its tag. A block restages a slot
only once the sent word has passed the item it held, so the bytes and the header of every
staged item stay until the item is sent.
-/

namespace SparkRing.Channel

open SequenceWord LaunchItems Function
open Option (some.inj)

variable {β : Type*} {C : Config} {start k : ℕ} {message : ℕ → List β} {blocks : ℕ} {stage : SendStage}

theorem Config.slots_dvd (C : Config) : C.slots ∣ modulus := by
  obtain ⟨hmin, hmax, hpow⟩ := C.slotsValid
  have hall : ∀ n ≤ 32, 2 ≤ n → n &&& (n - 1) = 0 → n ∣ 2 ^ 32 := by decide
  exact hall C.slots hmax hmin hpow

/-- An item's word has its slot. -/
theorem Config.index_eq (C : Config) (g : ℕ) : C.index g = g % C.slots :=
  Nat.mod_mod_of_dvd g C.slots_dvd

theorem Config.slots_pos (C : Config) : 0 < C.slots := Nat.lt_of_lt_of_le Nat.zero_lt_two C.slotsValid.1

/-- Items of one slot less than a ring apart are the same. -/
theorem Config.eq_of_index {a b : ℕ} (h : C.index a = C.index b) (hab : a < b + C.slots) (hba : b < a + C.slots) : a = b := by
  simp only [Config.index_eq] at h
  rcases Nat.le_total a b with hle | hle
  · have hdvd : C.slots ∣ b - a := (Nat.modEq_iff_dvd' hle).mp h
    have hzero := Nat.eq_zero_of_dvd_of_lt hdvd (by omega)
    omega
  have hdvd : C.slots ∣ a - b := (Nat.modEq_iff_dvd' hle).mp h.symm
  have hzero := Nat.eq_zero_of_dvd_of_lt hdvd (by omega)
  omega

/-- An earlier item of a slot is a ring before. -/
theorem Config.add_slots_le {a b : ℕ} (h : C.index a = C.index b) (hab : a < b) : a + C.slots ≤ b := by
  by_contra hlt
  have heq := Config.eq_of_index h (by omega) (by omega)
  omega

theorem Config.count_pos (k : ℕ) : 0 < C.count message k := items_pos _ _

section WriteBytes

variable {slot : ℕ → ℕ → β} {m n offset length j : ℕ} {bytes : ℕ → β}

theorem writeBytes_in (hlow : offset ≤ j) (hhigh : j < offset + length) :
    writeBytes slot m offset length bytes m j = bytes j := if_pos ⟨rfl, hlow, hhigh⟩

theorem writeBytes_out (h : ¬(offset ≤ j ∧ j < offset + length)) :
    writeBytes slot m offset length bytes n j = slot n j := if_neg fun hall => h hall.2

theorem writeBytes_of_ne (h : n ≠ m) : writeBytes slot m offset length bytes n = slot n :=
  funext fun _ => if_neg fun hall => h hall.1

end WriteBytes

/-- The item of its launch that each block is at. -/
def Sender.cur (S : Sender β) (b : ℕ) : Option ℕ := (S.block b).item

/-- A slot's ready word has reached an item's tag. -/
def Config.Staged (C : Config) (S : Sender β) (g : ℕ) : Prop := g + 1 ≤ S.ready (C.index g)

/-- A block passed an item of the channel. -/
def Config.SendPassed (C : Config) (start : ℕ) (message : ℕ → List β) (blocks : ℕ) (S : Sender β) (g : ℕ) : Prop :=
  Passed start (C.count message) blocks S.finished S.cur g

/-- A send slot holds a pack of an item. -/
def Config.HoldsPack [Zero β] (C : Config) (message : ℕ → List β) (slot : ℕ → β) (k i p : ℕ) : Prop :=
  ∀ j, 16 * p ≤ j → j < 16 * p + 16 → slot j = itemBytes C.slotBytes (message k) i j

def Config.HoldsBytes [Zero β] (C : Config) (message : ℕ → List β) (slot : ℕ → β) (k i : ℕ) : Prop :=
  ∀ j < itemPacks C.slotBytes (message k).length i * 16, slot j = itemBytes C.slotBytes (message k) i j

/-- The send slot of an item may be restaged. -/
def Config.Admitted (C : Config) (S : Sender β) (g : ℕ) : Prop := g + 1 ≤ S.sent + C.slots

/-- What a block has done of its item, in launch `k`. -/
def Config.StageHolds [Zero β] (C : Config) (start : ℕ) (message : ℕ → List β) (S : Sender β) (poison : Bool) (k : ℕ) :
    SendStage → Prop
  | .waiting _ | .gone => True
  | .checking i => poison = true ∨ C.Admitted S (C.number start message k i)
  | .copying i left => C.Admitted S (C.number start message k i) ∧
      ∀ p < itemPacks C.slotBytes (message k).length i, p ∉ left →
        C.HoldsPack message (S.slot (C.index (C.number start message k i))) k i p
  | .heading i => C.Admitted S (C.number start message k i) ∧
      C.HoldsBytes message (S.slot (C.index (C.number start message k i))) k i
  | .raising i => C.Admitted S (C.number start message k i) ∧
      C.HoldsBytes message (S.slot (C.index (C.number start message k i))) k i ∧
      S.desc (C.index (C.number start message k i)) = itemHeader C.slotBytes (message k).length i

/-- What holds of the staging end of a channel. -/
structure Staging [Zero β] (C : Config) (start : ℕ) (message : ℕ → List β) (blocks : ℕ) (S : Sender β) (poison : Bool) :
    Prop where
  running : S.finished ≤ S.launched
  /-- Blocks are at items of their own. -/
  aligned : Aligned (C.count message) blocks S.finished S.cur
  /-- Blocks pass items of launches only. -/
  passed_launched : ∀ g, C.SendPassed start message blocks S g → g < first start (C.count message) S.launched
  /-- Items are sent from the start item on. -/
  start_le : start ≤ S.sent
  /-- A ready word is the start word or an item's tag. -/
  ready_form : ∀ m, S.ready m = start ∨ ∃ g, start ≤ g ∧ C.index g = m ∧ S.ready m = g + 1
  /-- No item is staged before the item a ring before is sent. -/
  ready_le : ∀ m, S.ready m ≤ S.sent + C.slots
  /-- Items sent were staged. -/
  sent_staged : ∀ g, start ≤ g → g < S.sent → C.Staged S g
  /-- Items staged were passed. -/
  staged_passed : ∀ g, start ≤ g → C.Staged S g → C.SendPassed start message blocks S g
  /-- Without a failure, items passed were staged. -/
  passed_staged : poison = false → ∀ g, C.SendPassed start message blocks S g → C.Staged S g
  /-- What each block has done of its item. -/
  stage : ∀ b < blocks, C.StageHolds start message S poison S.finished (S.block b)
  /-- A staged item stays until it is sent. -/
  held : ∀ k i, i < C.count message k → C.Staged S (C.number start message k i) → S.sent ≤ C.number start message k i →
    C.HoldsBytes message (S.slot (C.index (C.number start message k i))) k i ∧
      S.desc (C.index (C.number start message k i)) = itemHeader C.slotBytes (message k).length i

variable {S S' : Sender β} {poison : Bool} {b i g : ℕ}

theorem start_le_number : start ≤ C.number start message k i :=
  (start_le_first k).trans (Nat.le_add_right _ _)

theorem cur_setBlock (stage : SendStage) : (S.setBlock b stage).cur = update S.cur b stage.item := by
  funext c
  simp only [Sender.cur, Sender.setBlock, update_apply]
  split <;> rfl

variable [Zero β]

section

variable (h : Staging C start message blocks S poison)

include h

/-- The item a block is at is not staged. -/
theorem Staging.not_staged (hb : b < blocks) (hi : S.cur b = some i) : ¬C.Staged S (C.number start message S.finished i) := by
  intro hstaged
  exact not_passed_current h.aligned hb hi (h.staged_passed _ start_le_number hstaged)

/-- The item a block is at is not sent. -/
theorem Staging.sent_le (hb : b < blocks) (hi : S.cur b = some i) : S.sent ≤ C.number start message S.finished i := by
  by_contra hlt
  exact h.not_staged hb hi (h.sent_staged _ start_le_number (by omega))

theorem Staging.admitted (hg : C.Staged S g) : C.Admitted S g :=
  hg.trans (h.ready_le _)

/-- Blocks that were admitted are at items of different slots, none of them staged and unsent. -/
theorem Staging.index_ne (hb : b < blocks) (hi : S.cur b = some i)
    (hadmitted : C.Admitted S (C.number start message S.finished i)) (hg : C.Admitted S g) (hsent : S.sent ≤ g)
    (hne : g ≠ C.number start message S.finished i) : C.index g ≠ C.index (C.number start message S.finished i) := by
  intro heq
  have hle := h.sent_le hb hi
  simp only [Config.Admitted] at hadmitted hg
  exact hne (Config.eq_of_index heq (by omega) (by omega))

/-- The blocks at items of one number are the same. -/
theorem Staging.block_unique {c j : ℕ} (hb : b < blocks) (hc : c < blocks) (hi : S.cur b = some i) (hj : S.cur c = some j)
    (heq : C.number start message S.finished j = C.number start message S.finished i) : c = b := by
  have hij : j = i := Nat.add_left_cancel heq
  rw [← (h.aligned c hc j hj).1, ← (h.aligned b hb i hi).1, hij]

end

/-- What a block has done is in its item's slot. -/
theorem StageHolds.congr (h : C.StageHolds start message S poison k stage) (hsent : S'.sent = S.sent)
    (hmem : ∀ j, stage.item = some j → C.Admitted S (C.number start message k j) →
      S'.slot (C.index (C.number start message k j)) = S.slot (C.index (C.number start message k j)) ∧
        S'.desc (C.index (C.number start message k j)) = S.desc (C.index (C.number start message k j))) :
    C.StageHolds start message S' poison k stage := by
  cases stage with
  | waiting => trivial
  | checking => exact h.imp_right fun hadmitted => by simpa only [Config.Admitted, hsent] using hadmitted
  | copying j left | heading j =>
    obtain ⟨hslot, -⟩ := hmem j rfl h.1
    exact ⟨by simpa only [Config.Admitted, hsent] using h.1, by rw [hslot]; exact h.2⟩
  | raising j =>
    obtain ⟨hslot, hdesc⟩ := hmem j rfl h.1
    exact ⟨by simpa only [Config.Admitted, hsent] using h.1, by rw [hslot]; exact h.2.1, by rw [hdesc]; exact h.2.2⟩
  | gone => trivial

/-- A block goes on within its item, and writes no slot but its own. -/
theorem Staging.fill (h : Staging C start message blocks S poison) (hb : b < blocks) (hi : S.cur b = some i)
    (hstage : stage.item = some i) {slot : ℕ → ℕ → β} {desc : ℕ → ℕ}
    (hmem : ∀ m, m ≠ C.index (C.number start message S.finished i) → slot m = S.slot m ∧ desc m = S.desc m)
    (hadmitted : C.Admitted S (C.number start message S.finished i) ∨ slot = S.slot ∧ desc = S.desc)
    (hS' : S' = { S.setBlock b stage with slot := slot, desc := desc })
    (hholds : C.StageHolds start message S' poison S.finished stage) : Staging C start message blocks S' poison := by
  have hcur : S'.cur = S.cur := by
    rw [hS']
    change (S.setBlock b stage).cur = S.cur
    rw [cur_setBlock, hstage, ← hi, update_eq_self]
  subst hS'
  have hother : ∀ g, C.Admitted S g → S.sent ≤ g → g ≠ C.number start message S.finished i →
      slot (C.index g) = S.slot (C.index g) ∧ desc (C.index g) = S.desc (C.index g) := by
    intro g hg hsent hne
    rcases hadmitted with hadmitted | ⟨hslot, hdesc⟩
    · exact hmem _ (h.index_ne hb hi hadmitted hg hsent hne)
    · rw [hslot, hdesc]
      exact ⟨rfl, rfl⟩
  constructor
  case running => exact h.running
  case aligned =>
    rw [hcur]
    exact h.aligned
  case passed_launched =>
    simp only [Config.SendPassed, hcur]
    exact h.passed_launched
  case start_le => exact h.start_le
  case ready_form => exact h.ready_form
  case ready_le => exact h.ready_le
  case sent_staged => exact h.sent_staged
  case staged_passed =>
    simp only [Config.SendPassed, hcur]
    exact h.staged_passed
  case passed_staged =>
    simp only [Config.SendPassed, hcur]
    exact h.passed_staged
  case stage =>
    intro c hc
    by_cases hcb : c = b
    · have hself : update S.block b stage c = stage := by rw [hcb, update_self]
      change C.StageHolds start message _ poison S.finished (update S.block b stage c)
      rw [hself]
      exact hholds
    have hself : update S.block b stage c = S.block c := update_of_ne hcb _ _
    change C.StageHolds start message _ poison S.finished (update S.block b stage c)
    rw [hself]
    refine StageHolds.congr (h.stage c hc) rfl fun j hj hadm => ?_
    exact hother _ hadm (h.sent_le hc hj) fun heq => hcb (h.block_unique hb hc hi hj heq)
  case held =>
    intro k j hj hstaged hsent
    have hne : C.number start message k j ≠ C.number start message S.finished i := by
      intro heq
      rw [heq] at hstaged
      exact h.not_staged hb hi hstaged
    obtain ⟨hslot, hdesc⟩ := hother _ (h.admitted hstaged) hsent hne
    have hheld := h.held k j hj hstaged hsent
    rw [← hslot, ← hdesc] at hheld
    exact hheld

theorem Staging.initial (C : Config) (start : ℕ) (message : Bool → ℕ → List β) (c : Bool) :
    Staging C start (message c) blocks ((Channel.initial C start message).sender c) false := by
  have hcur : ((Channel.initial C start message).sender c).cur = enter (C.count (message c) 0) := by
    funext b
    change (C.enterSend (message c) 0 b).item = _
    simp only [Config.enterSend, enter]
    split <;> rfl
  have hpassed : ∀ g, ¬C.SendPassed start (message c) blocks ((Channel.initial C start message).sender c) g := by
    intro g
    rw [Config.SendPassed, hcur]
    exact not_passed_enter
  have hstaged : ∀ g, start ≤ g → ¬C.Staged ((Channel.initial C start message).sender c) g :=
    fun g hg hstaged => absurd (hg.trans_lt (Nat.lt_of_succ_le hstaged)) (Nat.lt_irrefl _)
  constructor
  case running => exact le_rfl
  case aligned =>
    rw [hcur]
    exact aligned_enter _ _ _
  case passed_launched => exact fun g hg => absurd hg (hpassed g)
  case start_le => exact le_rfl
  case ready_form => exact fun m => .inl rfl
  case ready_le => exact fun m => Nat.le_add_right _ _
  case sent_staged => exact fun g hg hlt => absurd hlt (Nat.not_lt.mpr hg)
  case staged_passed => exact fun g hg hst => absurd hst (hstaged g hg)
  case passed_staged => exact fun _ g hg => absurd hg (hpassed g)
  case stage =>
    intro b _
    change C.StageHolds start (message c) _ false 0 (C.enterSend (message c) 0 b)
    simp only [Config.enterSend]
    split <;> trivial
  case held => exact fun k i _ hst => absurd hst (hstaged _ start_le_number)

theorem Staging.isend (h : Staging C start message blocks S poison) :
    Staging C start message blocks { S with launched := S.launched + 1 } poison := { h with
  running := Nat.le_succ_of_le h.running
  passed_launched g hg := (h.passed_launched g hg).trans_le (first_le_first (Nat.le_succ _))
  stage b hb := StageHolds.congr (h.stage b hb) rfl fun _ _ _ => ⟨rfl, rfl⟩ }

/-- The launches do not depend on the thread's fields. -/
theorem Staging.thread (h : Staging C start message blocks S poison) (credit creditSeen : ℕ) (laneItem laneBytes : ℕ → ℕ)
    (laneHeader : ℕ → Bool) (laneDone : ℕ → ℕ) :
    Staging C start message blocks
      { S with
        credit := credit, creditSeen := creditSeen, laneItem := laneItem, laneBytes := laneBytes
        laneHeader := laneHeader, laneDone := laneDone } poison :=
  { h with stage := fun b hb => StageHolds.congr (h.stage b hb) rfl fun _ _ _ => ⟨rfl, rfl⟩ }

theorem StageHolds.poisoned (h : C.StageHolds start message S poison k stage) : C.StageHolds start message S true k stage := by
  cases stage with
  | checking => exact .inl rfl
  | _ => exact h

section

variable (h : Staging C start message blocks S poison)

include h

theorem Staging.fail : Staging C start message blocks S true :=
  { h with
    passed_staged := fun hpoison => by cases hpoison
    stage := fun b hb => StageHolds.poisoned (h.stage b hb) }

/-- Items that were staged and completed on all lanes are sent. -/
theorem Staging.publish {done : ℕ} (hle : S.sent ≤ done)
    (hstaged : ∀ g, start ≤ g → g < done → C.Staged S g) : Staging C start message blocks { S with sent := done } poison := { h with
  start_le := h.start_le.trans hle
  ready_le m := (h.ready_le m).trans (Nat.add_le_add_right hle _)
  sent_staged := hstaged
  stage b hb := by
    have hadmitted : ∀ g, C.Admitted S g → C.Admitted { S with sent := done } g :=
      fun g hg => le_trans hg (Nat.add_le_add_right hle _)
    have hstage := h.stage b hb
    cases hs : S.block b with
    | waiting => trivial
    | checking =>
      rw [hs] at hstage
      exact hstage.imp_right (hadmitted _)
    | copying | heading | raising =>
      rw [hs] at hstage
      exact ⟨hadmitted _ hstage.1, hstage.2⟩
    | gone => trivial
  held k i hi hst hsent := h.held k i hi hst (le_trans hle hsent) }

/-- A launch whose blocks have all left finishes. -/
theorem Staging.finish (hblocks : 0 < blocks) (hrun : S.finished < S.launched)
    (hgone : ∀ b < blocks, S.block b = .gone) :
    Staging C start message blocks { S with finished := S.finished + 1, block := C.enterSend message (S.finished + 1) } poison := by
  have hnone : ∀ b < blocks, S.cur b = none := by
    intro b hb
    simp only [Sender.cur, hgone b hb, SendStage.item]
  have hcur : ∀ S'' : Sender β, S''.block = C.enterSend message (S.finished + 1) →
      S''.cur = enter (C.count message (S.finished + 1)) := by
    intro S'' hblock
    funext b
    simp only [Sender.cur, hblock, Config.enterSend, enter]
    split <;> rfl
  have hpassed : ∀ g, C.SendPassed start message blocks
      { S with finished := S.finished + 1, block := C.enterSend message (S.finished + 1) } g ↔
        C.SendPassed start message blocks S g := by
    intro g
    simp only [Config.SendPassed]
    rw [hcur _ rfl]
    exact passed_finish hblocks hnone
  constructor
  case running => exact hrun
  case aligned =>
    rw [hcur _ rfl]
    exact aligned_enter _ _ _
  case passed_launched => exact fun g hg => h.passed_launched g ((hpassed g).mp hg)
  case start_le => exact h.start_le
  case ready_form => exact h.ready_form
  case ready_le => exact h.ready_le
  case sent_staged => exact h.sent_staged
  case staged_passed => exact fun g hg hst => (hpassed g).mpr (h.staged_passed g hg hst)
  case passed_staged => exact fun hp g hg => h.passed_staged hp g ((hpassed g).mp hg)
  case stage =>
    intro b _
    simp only [Config.enterSend]
    split <;> trivial
  case held => exact h.held

end

theorem Staging.leave (h : Staging C start message blocks S true) (hrun : S.finished < S.launched) (b : ℕ) :
    Staging C start message blocks (S.setBlock b .gone) true := by
  have hcur : (S.setBlock b .gone).cur = update S.cur b none := cur_setBlock _
  constructor
  case running => exact h.running
  case aligned =>
    rw [hcur]
    exact h.aligned.leave
  case passed_launched =>
    intro g hg
    exact hg.lt_next.trans_le (first_le_first hrun)
  case start_le => exact h.start_le
  case ready_form => exact h.ready_form
  case ready_le => exact h.ready_le
  case sent_staged => exact h.sent_staged
  case staged_passed =>
    intro g hg hst
    simp only [Config.SendPassed, hcur]
    exact passed_leave (h.staged_passed g hg hst)
  case passed_staged => exact fun hp => by cases hp
  case stage =>
    intro c hc
    change C.StageHolds start message _ true S.finished (update S.block b .gone c)
    rw [update_apply]
    split
    case isTrue => trivial
    case isFalse => exact StageHolds.congr (h.stage c hc) rfl fun _ _ _ => ⟨rfl, rfl⟩
  case held => exact h.held

/-- A block raises the ready word of its item and goes on to its next one. -/
theorem Staging.raise (h : Staging C start message blocks S poison) (hrun : S.finished < S.launched) (hb : b < blocks)
    (hi : S.block b = .raising i) {next : SendStage} (hnext : next.item = stride (C.count message S.finished) blocks i)
    (hholds : ∀ S' : Sender β, C.StageHolds start message S' poison S.finished next) :
    Staging C start message blocks
      { S.setBlock b next with
        ready := update S.ready (C.index (C.number start message S.finished i))
          (C.number start message S.finished i + 1) } poison := by
  have hcur : S.cur b = some i := by simp only [Sender.cur, hi, SendStage.item]
  obtain ⟨hadmitted, hbytes, hdesc⟩ := (hi ▸ h.stage b hb : C.StageHolds start message S poison S.finished (.raising i))
  have hcount := (h.aligned b hb i hcur).2
  have hnot := h.not_staged hb hcur
  have hsent := h.sent_le hb hcur
  set g := C.number start message S.finished i with hg
  set S' : Sender β := { S.setBlock b next with ready := update S.ready (C.index g) (g + 1) } with hS'
  have hpassed : ∀ a, C.SendPassed start message blocks S' a ↔ a = g ∨ C.SendPassed start message blocks S a := by
    intro a
    have hcur' : S'.cur = update S.cur b (stride (C.count message S.finished) blocks i) := by
      rw [← hnext]
      exact cur_setBlock _
    simp only [Config.SendPassed, hcur']
    exact passed_stride h.aligned hb hcur
  have hmono : ∀ a, C.Staged S a → C.Staged S' a := by
    intro a ha
    simp only [Config.Staged, hS', update_apply] at ha ⊢
    split
    case isTrue hidx =>
      rw [hidx] at ha
      simp only [Config.Staged] at hnot
      omega
    case isFalse => exact ha
  -- what is staged now is the item raised, was staged, or lies a ring before the item raised
  have hcases : ∀ a, C.Staged S' a → a = g ∨ C.Staged S a ∨ a < S.sent := by
    intro a ha
    simp only [Config.Staged, hS', update_apply] at ha
    split at ha
    case isTrue hidx =>
      rcases Nat.lt_or_ge a g with hlt | hge
      · have hring := Config.add_slots_le hidx hlt
        simp only [Config.Admitted] at hadmitted
        exact .inr (.inr (by omega))
      · exact .inl (by omega)
    case isFalse => exact .inr (.inl ha)
  constructor
  case running => exact h.running
  case aligned =>
    have haligned := h.aligned.stride hb hcur
    rw [← hnext, ← cur_setBlock] at haligned
    exact haligned
  case passed_launched =>
    intro a ha
    rcases (hpassed a).mp ha with rfl | ha
    · exact item_lt_first hcount hrun
    · exact h.passed_launched a ha
  case start_le => exact h.start_le
  case ready_form =>
    intro m
    by_cases hm : m = C.index g
    · refine .inr ⟨g, start_le_number, hm.symm, ?_⟩
      simp only [hS', hm, update_self]
    · simp only [hS', update_of_ne hm]
      exact h.ready_form m
  case ready_le =>
    intro m
    by_cases hm : m = C.index g
    · simp only [hS', hm, update_self]
      exact hadmitted
    · simp only [hS', update_of_ne hm]
      exact h.ready_le m
  case sent_staged => exact fun a ha hlt => hmono a (h.sent_staged a ha hlt)
  case staged_passed =>
    intro a ha hst
    refine (hpassed a).mpr ?_
    rcases hcases a hst with heq | hst | hlt
    · exact .inl heq
    · exact .inr (h.staged_passed a ha hst)
    · exact .inr (h.staged_passed a ha (h.sent_staged a ha hlt))
  case passed_staged =>
    intro hp a ha
    rcases (hpassed a).mp ha with rfl | ha
    · simp only [Config.Staged, hS', update_self, le_refl]
    · exact hmono a (h.passed_staged hp a ha)
  case stage =>
    intro c hc
    change C.StageHolds start message S' poison S.finished (update S.block b next c)
    rw [update_apply]
    split
    case isTrue => exact hholds S'
    case isFalse => exact StageHolds.congr (h.stage c hc) rfl fun _ _ _ => ⟨rfl, rfl⟩
  case held =>
    intro k j hj hst hle
    rcases hcases _ hst with heq | hst | hlt
    · obtain ⟨rfl, rfl⟩ := item_unique hj hcount (heq.trans hg)
      exact ⟨hbytes, hdesc⟩
    · exact h.held k j hj hst hle
    · exact absurd hlt (Nat.not_lt.mpr hle)

/-- The sent word is near the tag a waiting block compares it with. -/
theorem Staging.number_lt (h : Staging C start message blocks S false) (hb : b < blocks) (hi : S.cur b = some i) :
    C.number start message S.finished i < S.sent + C.slots + blocks :=
  current_lt C.count_pos h.aligned hb hi (h.start_le.trans (Nat.le_add_right _ _)) fun g hg =>
    Nat.lt_of_succ_le (h.admitted (h.passed_staged rfl g hg))

/-- A block whose wait ends without a failure is admitted. -/
theorem Staging.admits (h : Staging C start message blocks S poison) (hblocks : blocks ≤ 64) (hb : b < blocks)
    (hi : S.cur b = some i) (hwait : 0 ≤ gap (S.sent + C.slots) (C.number start message S.finished i + 1) ∨ poison = true) :
    poison = true ∨ C.Admitted S (C.number start message S.finished i) := by
  cases poison with
  | true => exact .inl rfl
  | false =>
    right
    have hgap := hwait.resolve_right Bool.false_ne_true
    have hlt := h.number_lt hb hi
    have hle := h.sent_le hb hi
    have hslots := C.slotsValid.2.1
    rw [gap_of_near (by omega) (by omega)] at hgap
    simp only [Config.Admitted]
    omega

/-- What a step of the send launches leaves alone: the thread's fields. Ready words only
grow. -/
structure Sender.Staged (S S' : Sender β) : Prop where
  /-- The other fields. -/
  same : ∃ launched finished block slot desc ready,
    S' = { S with launched := launched, finished := finished, block := block, slot := slot, desc := desc, ready := ready }
  ready_le : ∀ m, S.ready m ≤ S'.ready m

/-- A block of the running send launch goes on. -/
theorem Staging.send (h : Staging C start message blocks S poison) (hblocks : blocks ≤ 64) {p : ℕ}
    (hs : C.send start message blocks poison S b p = some S') : Staging C start message blocks S' poison ∧ S.Staged S' := by
  simp only [Config.send] at hs
  obtain ⟨hb, hs⟩ := Option.ite_none_right_eq_some.mp hs
  obtain ⟨hb, hrun⟩ := hb
  have hstage := h.stage b hb
  cases hblock : S.block b with
  | waiting i =>
    have hcur : S.cur b = some i := by simp only [Sender.cur, hblock, SendStage.item]
    rw [hblock] at hs
    dsimp only at hs
    obtain ⟨hwait, rfl⟩ := Option.ite_some_none_eq_some.mp hs
    exact ⟨h.fill hb hcur rfl (fun _ _ => ⟨rfl, rfl⟩) (.inr ⟨rfl, rfl⟩) rfl (h.admits hblocks hb hcur hwait),
      ⟨_, _, _, _, _, _, rfl⟩, fun _ => le_rfl⟩
  | checking i =>
    have hcur : S.cur b = some i := by simp only [Sender.cur, hblock, SendStage.item]
    rw [hblock] at hs hstage
    cases poison with
    | true =>
      obtain rfl := some.inj hs
      exact ⟨h.leave hrun b, ⟨_, _, _, _, _, _, rfl⟩, fun _ => le_rfl⟩
    | false =>
      obtain rfl := some.inj hs
      refine ⟨h.fill hb hcur rfl (fun _ _ => ⟨rfl, rfl⟩) (.inr ⟨rfl, rfl⟩) rfl ?_, ⟨_, _, _, _, _, _, rfl⟩, fun _ => le_rfl⟩
      exact ⟨hstage.resolve_left Bool.false_ne_true, fun q hq hleft => absurd (List.mem_range.mpr hq) hleft⟩
  | copying i left =>
    have hcur : S.cur b = some i := by simp only [Sender.cur, hblock, SendStage.item]
    rw [hblock] at hs hstage
    obtain ⟨hadmitted, hpacks⟩ := hstage
    dsimp only at hs
    split at hs
    case isTrue hnil =>
      obtain rfl := some.inj hs
      refine ⟨h.fill hb hcur rfl (fun _ _ => ⟨rfl, rfl⟩) (.inr ⟨rfl, rfl⟩) rfl ⟨hadmitted, fun j hj => ?_⟩,
        ⟨_, _, _, _, _, _, rfl⟩, fun _ => le_rfl⟩
      refine hpacks (j / 16) (by omega) (by rw [hnil]; exact List.not_mem_nil) j (by omega) (by omega)
    case isFalse =>
      obtain ⟨-, rfl⟩ := Option.ite_some_none_eq_some.mp hs
      refine ⟨h.fill hb hcur rfl (fun m hm => ⟨writeBytes_of_ne hm, rfl⟩) (.inl hadmitted) rfl
        ⟨hadmitted, fun q hq hleft j hlow hhigh => ?_⟩, ⟨_, _, _, _, _, _, rfl⟩, fun _ => le_rfl⟩
      by_cases hqp : q = p
      · subst hqp
        exact writeBytes_in hlow hhigh
      have hq' : q ∉ left := fun hmem => hleft (List.mem_filter.mpr ⟨hmem, decide_eq_true hqp⟩)
      rw [← hpacks q hq hq' j hlow hhigh]
      exact writeBytes_out (by omega)
  | heading i =>
    have hcur : S.cur b = some i := by simp only [Sender.cur, hblock, SendStage.item]
    rw [hblock] at hs hstage
    obtain rfl := some.inj hs
    exact ⟨h.fill hb hcur rfl (fun m hm => ⟨rfl, update_of_ne hm _ _⟩) (.inl hstage.1) rfl
      ⟨hstage.1, hstage.2, update_self _ _ _⟩, ⟨_, _, _, _, _, _, rfl⟩, fun _ => le_rfl⟩
  | raising i =>
    have hcur : S.cur b = some i := by simp only [Sender.cur, hblock, SendStage.item]
    have hnot := h.not_staged hb hcur
    rw [hblock] at hs
    obtain rfl := some.inj hs
    refine ⟨h.raise hrun hb hblock ?_ ?_, ⟨_, _, _, _, _, _, rfl⟩, fun m => ?_⟩
    · simp only [stride]
      split <;> rfl
    · intro S''
      split <;> trivial
    simp only [Config.Staged] at hnot
    simp only [update_apply]
    split
    case isTrue hm =>
      rw [hm]
      omega
    case isFalse => exact le_rfl
  | gone =>
    rw [hblock] at hs
    cases hs

end SparkRing.Channel
