import SparkRing.ChannelLanding

/-!
# Receive launches

The blocks of a receive launch copy items out of order, each once its flags have come on
all lanes and its header is the one expected. An item is consumed when its slot's consumed
word has reached its tag, and released in order.
-/

namespace SparkRing.Channel

open SequenceWord LaunchItems Function
open Option (some.inj)

variable {β : Type*} {C : Config} {start k j : ℕ} {message : ℕ → List β} {blocks : ℕ} {R R' : Receiver β} {d d' : ℕ → Place}
  {poison : Bool} {b i g l : ℕ} {stage : RecvStage} {out : ℕ → ℕ → β}

/-- The item of its launch that each block is at. -/
def Receiver.cur (R : Receiver β) (b : ℕ) : Option ℕ := (R.block b).item

/-- A slot's consumed word has reached an item's tag. -/
def Config.Consumed (C : Config) (R : Receiver β) (g : ℕ) : Prop := g + 1 ≤ R.consumed (C.index g)

/-- A block passed an item of the channel. -/
def Config.RecvPassed (C : Config) (start : ℕ) (message : ℕ → List β) (blocks : ℕ) (R : Receiver β) (g : ℕ) : Prop :=
  Passed start (C.count message) blocks R.finished R.cur g

def Config.Delivered (C : Config) (d : ℕ → Place) (g : ℕ) : Prop := ∀ l < C.lanes, g < (d l).item

theorem Receiver.cur_setBlock (stage : RecvStage) : (R.setBlock b stage).cur = update R.cur b stage.item := by
  funext c
  simp only [Receiver.cur, Receiver.setBlock, update_apply]
  split <;> rfl

/-- The items of a buffer are apart. -/
theorem writeBytes_apart {i' p : ℕ} {k' : ℕ} {bytes : ℕ → β} (hne : k' ≠ k ∨ i' ≠ i)
    (hp : 16 * p + 16 ≤ C.slotBytes) (hj : j < C.slotBytes) :
    writeBytes out k (i * C.slotBytes + 16 * p) 16 bytes k' (i' * C.slotBytes + j) = out k' (i' * C.slotBytes + j) := by
  rcases hne with hk | hi
  · rw [writeBytes_of_ne hk]
  refine writeBytes_out fun hin => ?_
  rcases Nat.lt_or_gt_of_ne hi with hlt | hgt
  · have hmul : (i' + 1) * C.slotBytes ≤ i * C.slotBytes := Nat.mul_le_mul_right _ hlt
    rw [Nat.add_mul, Nat.one_mul] at hmul
    omega
  have hmul : (i + 1) * C.slotBytes ≤ i' * C.slotBytes := Nat.mul_le_mul_right _ hgt
  rw [Nat.add_mul, Nat.one_mul] at hmul
  omega

variable [Zero β]

/-- A launch's buffer holds a pack of an item. -/
def Config.OutPack (C : Config) (message : ℕ → List β) (R : Receiver β) (k i p : ℕ) : Prop :=
  ∀ j, 16 * p ≤ j → j < 16 * p + 16 → R.out k (i * C.slotBytes + j) = itemBytes C.slotBytes (message k) i j

/-- A launch's buffer holds the bytes of an item. -/
def Config.OutBytes (C : Config) (message : ℕ → List β) (R : Receiver β) (k i : ℕ) : Prop :=
  ∀ j < itemPacks C.slotBytes (message k).length i * 16,
    R.out k (i * C.slotBytes + j) = itemBytes C.slotBytes (message k) i j

/-- What a block has done of its item, in launch `k`. -/
def Config.StageTakes (C : Config) (start : ℕ) (message : ℕ → List β) (R : Receiver β) (d : ℕ → Place) (poison : Bool) (k : ℕ) :
    RecvStage → Prop
  | .waiting i pending => (∀ l ∈ pending, l < C.lanes) ∧
      (poison = true ∨ ∀ l < C.lanes, l ∉ pending → C.number start message k i < (d l).item)
  | .copying i left => C.Delivered d (C.number start message k i) ∧
      (∀ p ∈ left, p < itemPacks C.slotBytes (message k).length i) ∧
      ∀ p < itemPacks C.slotBytes (message k).length i, p ∉ left → C.OutPack message R k i p
  | .consuming i => C.Delivered d (C.number start message k i) ∧ C.OutBytes message R k i
  | .gone => True

/-- What holds of the receive launches, where the lanes have delivered up to the places `d`. -/
structure Taking (C : Config) (start : ℕ) (message : ℕ → List β) (blocks : ℕ) (R : Receiver β) (poison : Bool) (d : ℕ → Place) :
    Prop where
  running : R.finished ≤ R.launched
  /-- Blocks are at items of their own. -/
  aligned : Aligned (C.count message) blocks R.finished R.cur
  /-- Blocks pass items of launches only. -/
  passed_launched : ∀ g, C.RecvPassed start message blocks R g → g < first start (C.count message) R.launched
  /-- Items are released from the start item on. -/
  start_le : start ≤ R.released
  /-- A consumed word is the start word or an item's tag. -/
  consumed_form : ∀ m, R.consumed m = start ∨ ∃ g, start ≤ g ∧ C.index g = m ∧ R.consumed m = g + 1
  /-- Items released were consumed. -/
  released_consumed : ∀ g, start ≤ g → g < R.released → C.Consumed R g
  /-- Items consumed were delivered on all lanes. -/
  consumed_delivered : ∀ g, start ≤ g → C.Consumed R g → C.Delivered d g
  /-- Items consumed were passed. -/
  consumed_passed : ∀ g, start ≤ g → C.Consumed R g → C.RecvPassed start message blocks R g
  /-- Without a failure, items passed were consumed. -/
  passed_consumed : poison = false → ∀ g, C.RecvPassed start message blocks R g → C.Consumed R g
  /-- What each block has done of its item. -/
  stage : ∀ b < blocks, C.StageTakes start message R d poison R.finished (R.block b)
  /-- An item consumed is in its launch's buffer. -/
  copied : ∀ k i, i < C.count message k → C.Consumed R (C.number start message k i) → C.OutBytes message R k i

theorem StageTakes.mono (h : C.StageTakes start message R d poison k stage)
    (hd : ∀ l < C.lanes, (d l).item ≤ (d' l).item) (hout : R'.out = R.out) : C.StageTakes start message R' d' poison k stage := by
  cases stage with
  | waiting => exact ⟨h.1, h.2.imp_right fun hall l hl hmem => (hall l hl hmem).trans_le (hd l hl)⟩
  | copying =>
    refine ⟨fun l hl => (h.1 l hl).trans_le (hd l hl), ?_⟩
    simp only [Config.OutPack, hout]
    exact h.2
  | consuming =>
    refine ⟨fun l hl => (h.1 l hl).trans_le (hd l hl), ?_⟩
    simp only [Config.OutBytes, hout]
    exact h.2
  | gone => trivial

theorem StageTakes.poisoned (h : C.StageTakes start message R d poison k stage) : C.StageTakes start message R d true k stage := by
  cases stage with
  | waiting => exact ⟨h.1, .inl rfl⟩
  | _ => exact h

/-- A block that enters an item waits for every lane. -/
theorem stageTakes_enter : C.StageTakes start message R d poison k (.waiting i (List.range C.lanes)) :=
  ⟨fun _ hl => List.mem_range.mp hl, .inr fun _ hl hmem => absurd (List.mem_range.mpr hl) hmem⟩

namespace Taking

section

variable (h : Taking C start message blocks R poison d)

include h

/-- The item a block is at is not consumed. -/
theorem not_consumed (hb : b < blocks) (hi : R.cur b = some i) : ¬C.Consumed R (C.number start message R.finished i) := by
  intro hconsumed
  exact not_passed_current h.aligned hb hi (h.consumed_passed _ start_le_number hconsumed)

/-- The item a block is at is not released. -/
theorem released_le (hb : b < blocks) (hi : R.cur b = some i) : R.released ≤ C.number start message R.finished i := by
  by_contra hlt
  exact h.not_consumed hb hi (h.released_consumed _ start_le_number (by omega))

/-- Items released were delivered on every lane. -/
theorem released_le_item (hd : Landing C start message R d) (hl : l < C.lanes) : R.released ≤ (d l).item := by
  by_contra hlt
  have hstart := hd.start_le l hl
  exact Nat.lt_irrefl _ (h.consumed_delivered _ hstart (h.released_consumed _ hstart (by omega)) l hl)

end

theorem initial (C : Config) (start : ℕ) (message : Bool → ℕ → List β) (c : Bool) :
    Taking C start (message c) blocks ((Channel.initial C start message).receiver c) false fun _ => ⟨start, 0, false⟩ := by
  have hcur : ((Channel.initial C start message).receiver c).cur = enter (C.count (message c) 0) := by
    funext b
    change (C.enterRecv (message c) 0 b).item = _
    simp only [Config.enterRecv, enter]
    split <;> rfl
  have hpassed : ∀ g, ¬C.RecvPassed start (message c) blocks ((Channel.initial C start message).receiver c) g := by
    intro g
    rw [Config.RecvPassed, hcur]
    exact not_passed_enter
  have hconsumed : ∀ g, start ≤ g → ¬C.Consumed ((Channel.initial C start message).receiver c) g :=
    fun g hg hconsumed => absurd (hg.trans_lt (Nat.lt_of_succ_le hconsumed)) (Nat.lt_irrefl _)
  constructor
  case running => exact le_rfl
  case aligned =>
    rw [hcur]
    exact aligned_enter _ _ _
  case passed_launched => exact fun g hg => absurd hg (hpassed g)
  case start_le => exact le_rfl
  case consumed_form => exact fun m => .inl rfl
  case released_consumed => exact fun g hg hlt => absurd hlt (Nat.not_lt.mpr hg)
  case consumed_delivered => exact fun g hg hst => absurd hst (hconsumed g hg)
  case consumed_passed => exact fun g hg hst => absurd hst (hconsumed g hg)
  case passed_consumed => exact fun _ g hg => absurd hg (hpassed g)
  case stage =>
    intro b _
    change C.StageTakes start (message c) _ _ false 0 (C.enterRecv (message c) 0 b)
    simp only [Config.enterRecv]
    split
    case isTrue => exact stageTakes_enter
    case isFalse => trivial
  case copied => exact fun k i _ hst => absurd hst (hconsumed _ start_le_number)

section

variable (h : Taking C start message blocks R poison d)

include h

theorem mono (hd : ∀ l < C.lanes, (d l).item ≤ (d' l).item) (w : Write)
    (S : Sender β) (l : ℕ) : Taking C start message blocks (R.land S l w) poison d' := by
  have hsame : ∃ slot flag header, R.land S l w = { R with slot := slot, flag := flag, header := header } := by
    cases w <;> exact ⟨_, _, _, rfl⟩
  obtain ⟨slot, flag, header, hsame⟩ := hsame
  rw [hsame]
  exact
    { h with
      consumed_delivered := fun g hg hst l hl => (h.consumed_delivered g hg hst l hl).trans_le (hd l hl)
      stage := fun b hb => StageTakes.mono (h.stage b hb) hd rfl }

theorem irecv :
    Taking C start message blocks { R with launched := R.launched + 1 } poison d := { h with
  running := Nat.le_succ_of_le h.running
  passed_launched g hg := (h.passed_launched g hg).trans_le (first_le_first (Nat.le_succ _))
  stage b hb := StageTakes.mono (h.stage b hb) (fun _ _ => le_rfl) rfl }

theorem fail : Taking C start message blocks R true d :=
  { h with
    passed_consumed := fun hpoison => by cases hpoison
    stage := fun b hb => StageTakes.poisoned (h.stage b hb) }

/-- The next item is released. -/
theorem release (hd : Landing C start message R d)
    (hs : C.release R = some R') : Taking C start message blocks R' poison d ∧ Landing C start message R' d := by
  simp only [Config.release] at hs
  obtain ⟨hword, rfl⟩ := Option.ite_some_none_eq_some.mp hs
  have hslots := C.slotsValid.2.1
  have hlane : 0 < C.lanes := C.lanesValid.1
  have hcap := hd.place_le 0 hlane
  -- the consumed word of the slot is near the tag of the item to release
  have hhigh : R.consumed (C.index R.released) ≤ R.released + C.slots + 1 := by
    rcases h.consumed_form (C.index R.released) with hform | ⟨g, hg, hidx, hform⟩
    · have hstart := h.start_le
      omega
    have hdelivered := h.consumed_delivered g hg (by
      simp only [Config.Consumed]
      rw [hidx, hform]) 0 hlane
    omega
  have hlow : R.released ≤ R.consumed (C.index R.released) + C.slots := by
    rcases Nat.lt_or_ge R.released (start + C.slots) with hlt | hge
    · rcases h.consumed_form (C.index R.released) with hform | ⟨g, hg, hidx, hform⟩ <;> omega
    have hbefore : C.Consumed R (R.released - C.slots) :=
      h.released_consumed _ (by omega) (by have := C.slots_pos; omega)
    have hidx : C.index (R.released - C.slots) = C.index R.released := by
      simp only [Config.index_eq]
      exact (Nat.mod_eq_sub_mod (by omega)).symm
    simp only [Config.Consumed] at hbefore
    rw [hidx] at hbefore
    omega
  have heq := eq_of_sameWord hword (by omega) (by omega)
  refine ⟨{ h with
    start_le := Nat.le_succ_of_le h.start_le
    released_consumed := fun g hg hlt => ?_
    stage := fun b hb => StageTakes.mono (h.stage b hb) (fun _ _ => le_rfl) rfl }, hd.congr rfl rfl rfl (Nat.le_succ _)⟩
  rcases Nat.lt_or_ge g R.released with hlt' | hge
  · exact h.released_consumed g hg hlt'
  have hgr : g = R.released := by
    dsimp only at hlt
    omega
  simp only [Config.Consumed, hgr]
  exact heq.ge

/-- A launch whose blocks have all left finishes. -/
theorem finish (hblocks : 0 < blocks) (hrun : R.finished < R.launched)
    (hgone : ∀ b < blocks, R.block b = .gone) :
    Taking C start message blocks { R with finished := R.finished + 1, block := C.enterRecv message (R.finished + 1) } poison d := by
  have hnone : ∀ b < blocks, R.cur b = none := by
    intro b hb
    simp only [Receiver.cur, hgone b hb, RecvStage.item]
  have hcur : ({ R with finished := R.finished + 1, block := C.enterRecv message (R.finished + 1) } : Receiver β).cur =
      enter (C.count message (R.finished + 1)) := by
    funext b
    simp only [Receiver.cur, Config.enterRecv, enter]
    split <;> rfl
  have hpassed : ∀ g, C.RecvPassed start message blocks
      { R with finished := R.finished + 1, block := C.enterRecv message (R.finished + 1) } g ↔
        C.RecvPassed start message blocks R g := by
    intro g
    simp only [Config.RecvPassed]
    rw [hcur]
    exact passed_finish hblocks hnone
  constructor
  case running => exact hrun
  case aligned =>
    rw [hcur]
    exact aligned_enter _ _ _
  case passed_launched => exact fun g hg => h.passed_launched g ((hpassed g).mp hg)
  case start_le => exact h.start_le
  case consumed_form => exact h.consumed_form
  case released_consumed => exact h.released_consumed
  case consumed_delivered => exact h.consumed_delivered
  case consumed_passed => exact fun g hg hst => (hpassed g).mpr (h.consumed_passed g hg hst)
  case passed_consumed => exact fun hp g hg => h.passed_consumed hp g ((hpassed g).mp hg)
  case stage =>
    intro b _
    simp only [Config.enterRecv]
    split
    case isTrue => exact stageTakes_enter
    case isFalse => trivial
  case copied => exact h.copied

end

theorem leave (h : Taking C start message blocks R true d) (hrun : R.finished < R.launched) (b : ℕ) :
    Taking C start message blocks (R.setBlock b .gone) true d := by
  have hcur : (R.setBlock b .gone).cur = update R.cur b none := Receiver.cur_setBlock _
  constructor
  case running => exact h.running
  case aligned =>
    rw [hcur]
    exact h.aligned.leave
  case passed_launched => exact fun g hg => hg.lt_next.trans_le (first_le_first hrun)
  case start_le => exact h.start_le
  case consumed_form => exact h.consumed_form
  case released_consumed => exact h.released_consumed
  case consumed_delivered => exact h.consumed_delivered
  case consumed_passed =>
    intro g hg hst
    simp only [Config.RecvPassed, hcur]
    exact passed_leave (h.consumed_passed g hg hst)
  case passed_consumed => exact fun hp => by cases hp
  case stage =>
    intro c hc
    change C.StageTakes start message _ _ true R.finished (update R.block b .gone c)
    rw [update_apply]
    split
    case isTrue => trivial
    case isFalse => exact StageTakes.mono (h.stage c hc) (fun _ _ => le_rfl) rfl
  case copied => exact h.copied

/-- A block goes on within its item, and writes no part of a buffer but its item's. -/
theorem fill (h : Taking C start message blocks R poison d) (hb : b < blocks) (hi : R.cur b = some i)
    (hstage : stage.item = some i)
    (hout : ∀ k i', k ≠ R.finished ∨ i' ≠ i → ∀ j < itemPacks C.slotBytes (message k).length i' * 16,
      out k (i' * C.slotBytes + j) = R.out k (i' * C.slotBytes + j))
    (hR' : R' = { R.setBlock b stage with out := out })
    (hholds : C.StageTakes start message R' d poison R.finished stage) : Taking C start message blocks R' poison d := by
  have hcur : R'.cur = R.cur := by
    rw [hR']
    change (R.setBlock b stage).cur = R.cur
    rw [Receiver.cur_setBlock, hstage, ← hi, update_eq_self]
  subst hR'
  constructor
  case running => exact h.running
  case aligned =>
    rw [hcur]
    exact h.aligned
  case passed_launched =>
    simp only [Config.RecvPassed, hcur]
    exact h.passed_launched
  case start_le => exact h.start_le
  case consumed_form => exact h.consumed_form
  case released_consumed => exact h.released_consumed
  case consumed_delivered => exact h.consumed_delivered
  case consumed_passed =>
    simp only [Config.RecvPassed, hcur]
    exact h.consumed_passed
  case passed_consumed =>
    simp only [Config.RecvPassed, hcur]
    exact h.passed_consumed
  case stage =>
    intro c hc
    change C.StageTakes start message _ d poison R.finished (update R.block b stage c)
    by_cases hcb : c = b
    · rw [hcb, update_self]
      exact hholds
    rw [update_of_ne hcb]
    have hstage' := h.stage c hc
    have hne : ∀ i', R.cur c = some i' → R.finished ≠ R.finished ∨ i' ≠ i := by
      intro i' hi'
      right
      rintro rfl
      exact hcb ((h.aligned c hc _ hi').1.symm.trans (h.aligned b hb _ hi).1)
    cases hblock : R.block c with
    | waiting =>
      rw [hblock] at hstage'
      exact hstage'
    | copying i' left =>
      rw [hblock] at hstage'
      refine ⟨hstage'.1, hstage'.2.1, fun p hp hleft j hlow hhigh => ?_⟩
      have hcur' : R.cur c = some i' := by simp only [Receiver.cur, hblock, RecvStage.item]
      exact (hout R.finished i' (hne i' hcur') j (by omega)).trans (hstage'.2.2 p hp hleft j hlow hhigh)
    | consuming i' =>
      rw [hblock] at hstage'
      refine ⟨hstage'.1, fun j hj => ?_⟩
      have hcur' : R.cur c = some i' := by simp only [Receiver.cur, hblock, RecvStage.item]
      exact (hout R.finished i' (hne i' hcur') j hj).trans (hstage'.2 j hj)
    | gone => trivial
  case copied =>
    intro k i' hi' hconsumed j hj
    refine (hout k i' ?_ j hj).trans (h.copied k i' hi' hconsumed j hj)
    by_contra hsame
    rw [not_or, not_not, not_not] at hsame
    obtain ⟨rfl, rfl⟩ := hsame
    exact h.not_consumed hb hi hconsumed

/-- A block writes the consumed word of its item and goes on to its next one. -/
theorem consume (h : Taking C start message blocks R poison d) (hd : Landing C start message R d) (hrun : R.finished < R.launched)
    (hb : b < blocks) (hi : R.block b = .consuming i) {next : RecvStage}
    (hnext : next.item = stride (C.count message R.finished) blocks i)
    (hholds : ∀ R' : Receiver β, C.StageTakes start message R' d poison R.finished next) :
    Taking C start message blocks
      { R.setBlock b next with
        consumed := update R.consumed (C.index (C.number start message R.finished i))
          (C.number start message R.finished i + 1) } poison d := by
  have hcur : R.cur b = some i := by simp only [Receiver.cur, hi, RecvStage.item]
  obtain ⟨hdelivered, hbytes⟩ := (hi ▸ h.stage b hb : C.StageTakes start message R d poison R.finished (.consuming i))
  have hcount := (h.aligned b hb i hcur).2
  have hnot := h.not_consumed hb hcur
  have hlane : 0 < C.lanes := C.lanesValid.1
  have hcap := hd.place_le 0 hlane
  have hfresh := hdelivered 0 hlane
  set g := C.number start message R.finished i with hg
  set R' : Receiver β := { R.setBlock b next with consumed := update R.consumed (C.index g) (g + 1) } with hR'
  have hpassed : ∀ a, C.RecvPassed start message blocks R' a ↔ a = g ∨ C.RecvPassed start message blocks R a := by
    intro a
    have hcur' : R'.cur = update R.cur b (stride (C.count message R.finished) blocks i) := by
      rw [← hnext]
      exact Receiver.cur_setBlock _
    simp only [Config.RecvPassed, hcur']
    exact passed_stride h.aligned hb hcur
  have hmono : ∀ a, C.Consumed R a → C.Consumed R' a := by
    intro a ha
    simp only [Config.Consumed, hR', update_apply] at ha ⊢
    split
    case isTrue hidx =>
      rw [hidx] at ha
      simp only [Config.Consumed] at hnot
      omega
    case isFalse => exact ha
  -- what is consumed now is the item, was consumed, or lies a ring before the item
  have hcases : ∀ a, start ≤ a → C.Consumed R' a → a = g ∨ C.Consumed R a := by
    intro a hstart ha
    simp only [Config.Consumed, hR', update_apply] at ha
    split at ha
    case isTrue hidx =>
      rcases Nat.lt_or_ge a g with hlt | hge
      · have hring := Config.add_slots_le hidx hlt
        exact .inr (h.released_consumed a hstart (by omega))
      · exact .inl (by omega)
    case isFalse => exact .inr ha
  constructor
  case running => exact h.running
  case aligned =>
    have haligned := h.aligned.stride hb hcur
    rw [← hnext, ← Receiver.cur_setBlock] at haligned
    exact haligned
  case passed_launched =>
    intro a ha
    rcases (hpassed a).mp ha with rfl | ha
    · exact item_lt_first hcount hrun
    · exact h.passed_launched a ha
  case start_le => exact h.start_le
  case consumed_form =>
    intro m
    by_cases hm : m = C.index g
    · refine .inr ⟨g, start_le_number, hm.symm, ?_⟩
      simp only [hR', hm, update_self]
    · simp only [hR', update_of_ne hm]
      exact h.consumed_form m
  case released_consumed => exact fun a ha hlt => hmono a (h.released_consumed a ha hlt)
  case consumed_delivered =>
    intro a ha hst
    rcases hcases a ha hst with rfl | hst
    · exact hdelivered
    · exact h.consumed_delivered a ha hst
  case consumed_passed =>
    intro a ha hst
    exact (hpassed a).mpr ((hcases a ha hst).imp_right (h.consumed_passed a ha))
  case passed_consumed =>
    intro hp a ha
    rcases (hpassed a).mp ha with rfl | ha
    · simp only [Config.Consumed, hR', update_self, le_refl]
    · exact hmono a (h.passed_consumed hp a ha)
  case stage =>
    intro c hc
    change C.StageTakes start message R' d poison R.finished (update R.block b next c)
    rw [update_apply]
    split
    case isTrue => exact hholds R'
    case isFalse => exact StageTakes.mono (h.stage c hc) (fun _ _ => le_rfl) rfl
  case copied =>
    intro k j hj hst
    rcases hcases _ start_le_number hst with heq | hst
    · obtain ⟨rfl, rfl⟩ := item_unique hj hcount (heq.trans hg)
      exact hbytes
    · exact h.copied k j hj hst

/-- No block is further ahead of the items released than a ring and its launch's blocks. -/
theorem number_lt (h : Taking C start message blocks R false d) (hd : Landing C start message R d) (hb : b < blocks)
    (hi : R.cur b = some i) : C.number start message R.finished i < R.released + C.slots + blocks := by
  refine current_lt C.count_pos h.aligned hb hi (h.start_le.trans (Nat.le_add_right _ _)) fun g hg => ?_
  have hpassed := hg
  obtain ⟨k, j, -, hkj, -⟩ := hpassed
  have hstart : start ≤ g := hkj ▸ start_le_number
  exact (h.consumed_delivered g hstart (h.passed_consumed rfl g hg) 0 C.lanesValid.1).trans_le (hd.place_le 0 C.lanesValid.1)

/-- A flag of the tag a block waits for is that of its item. -/
theorem delivered_of_flag (h : Taking C start message blocks R false d) (hd : Landing C start message R d)
    (hblocks : blocks ≤ 64) (hb : b < blocks) (hi : R.cur b = some i) (hl : l < C.lanes)
    (hflag : sameWord (R.flag (C.index (C.number start message R.finished i)) l)
      (C.number start message R.finished i + 1) = true) : C.number start message R.finished i < (d l).item := by
  set g := C.number start message R.finished i with hg
  have hstart : start ≤ g := start_le_number
  have hlt := h.number_lt hd hb hi
  have hle := h.released_le hb hi
  have hslots := C.slotsValid
  have hcap := hd.place_le l hl
  have hreleased := h.released_le_item hd hl
  have hhigh : R.flag (C.index g) l ≤ R.released + C.slots + 1 := by
    rcases hd.flag_form (C.index g) l hl with hform | ⟨a, -, -, ha, hform⟩
    · have := h.start_le
      omega
    · omega
  -- an item of the slot 33 rings before was delivered, where there is one
  have hlow : g ≤ R.flag (C.index g) l + 33 * C.slots := by
    rcases Nat.lt_or_ge g (start + 33 * C.slots) with hnear | hfar
    · rcases hd.flag_form (C.index g) l hl with hform | ⟨a, ha, -, -, hform⟩ <;> omega
    have hbefore := hd.flag_le l hl (g - 33 * C.slots) (by omega) (by omega)
    have hidx : C.index (g - 33 * C.slots) = C.index g := by
      simp only [Config.index_eq]
      conv_rhs => rw [← Nat.sub_add_cancel (show 33 * C.slots ≤ g by omega), Nat.add_mul_mod_self_right]
    rw [hidx] at hbefore
    omega
  have heq := eq_of_sameWord hflag (by omega) (by omega)
  rcases hd.flag_form (C.index g) l hl with hform | ⟨a, -, -, ha, hform⟩ <;> omega

/-- Every byte of an item delivered and not released is in its slot. -/
theorem slot_bytes (hd : Landing C start message R d) (hi : i < C.count message k)
    (hreleased : R.released ≤ C.number start message k i) (hdelivered : C.Delivered d (C.number start message k i))
    (hj : j < itemPacks C.slotBytes (message k).length i * 16) :
    R.slot (C.index (C.number start message k i)) j = itemBytes C.slotBytes (message k) i j := by
  obtain ⟨l, hl, hlow, hhigh⟩ := stripe_cover C.lanesValid.1 (Nat.mul_mod_left _ _) hj
  exact hd.held l hl k i hi hreleased (hdelivered l hl) j hlow hhigh

/-- What a step of a receive launch leaves alone: everything but its blocks, its buffers
and its consumed words, which only grow. -/
structure Same (R R' : Receiver β) : Prop where
  /-- The other fields. -/
  same : ∃ block out consumed, R' = { R with block := block, out := out, consumed := consumed }
  consumed_le : ∀ m, R.consumed m ≤ R'.consumed m

/-- A block of the running receive launch goes on. -/
theorem recv (h : Taking C start message blocks R poison d) (hd : Landing C start message R d) (hblocks : blocks ≤ 64) {p : ℕ}
    {poison' : Bool} (hs : C.recv start message blocks poison R b p = some (R', poison')) :
    Taking C start message blocks R' poison' d ∧ Same R R' ∧ (poison = true → poison' = true) := by
  simp only [Config.recv] at hs
  obtain ⟨hb, hs⟩ := Option.ite_none_right_eq_some.mp hs
  obtain ⟨hb, hrun⟩ := hb
  have hstage := h.stage b hb
  cases hblock : R.block b with
  | waiting i pending =>
    have hcur : R.cur b = some i := by simp only [Receiver.cur, hblock, RecvStage.item]
    rw [hblock] at hs hstage
    dsimp only at hs
    split at hs
    case isTrue hnil =>
      cases poison with
      | true =>
        obtain ⟨rfl, rfl⟩ := Prod.mk.inj (some.inj hs)
        exact ⟨h.leave hrun b, ⟨⟨_, _, _, rfl⟩, fun _ => le_rfl⟩, fun _ => rfl⟩
      | false =>
        rw [if_neg Bool.false_ne_true] at hs
        split at hs
        case isTrue =>
          obtain ⟨rfl, rfl⟩ := Prod.mk.inj (some.inj hs)
          exact ⟨h.fail.leave hrun b, ⟨⟨_, _, _, rfl⟩, fun _ => le_rfl⟩, fun _ => rfl⟩
        case isFalse =>
          obtain ⟨rfl, rfl⟩ := Prod.mk.inj (some.inj hs)
          refine ⟨h.fill hb hcur rfl (fun _ _ _ _ _ => rfl) rfl ⟨fun l hl => ?_, fun q hq => List.mem_range.mp hq, fun q hq hleft => ?_⟩,
            ⟨⟨_, _, _, rfl⟩, fun _ => le_rfl⟩, id⟩
          · exact hstage.2.resolve_left Bool.false_ne_true l hl (by rw [hnil]; exact List.not_mem_nil)
          · exact absurd (List.mem_range.mpr hq) hleft
    case isFalse =>
      obtain ⟨hp, hs⟩ := Option.ite_none_right_eq_some.mp hs
      obtain ⟨rfl, rfl⟩ := Prod.mk.inj (some.inj hs)
      refine ⟨h.fill hb hcur rfl (fun _ _ _ _ _ => rfl) rfl ⟨fun l hl => hstage.1 l (List.mem_filter.mp hl).1, ?_⟩,
        ⟨⟨_, _, _, rfl⟩, fun _ => le_rfl⟩, id⟩
      cases poison with
      | true => exact .inl rfl
      | false =>
        refine .inr fun l hl hleft => ?_
        by_cases hlp : l = p
        · subst hlp
          exact h.delivered_of_flag hd hblocks hb hcur hl (hp.2.resolve_right Bool.false_ne_true)
        · refine hstage.2.resolve_left Bool.false_ne_true l hl fun hmem => hleft ?_
          exact List.mem_filter.mpr ⟨hmem, decide_eq_true hlp⟩
  | copying i left =>
    have hcur : R.cur b = some i := by simp only [Receiver.cur, hblock, RecvStage.item]
    have hcount := (h.aligned b hb i hcur).2
    rw [hblock] at hs hstage
    obtain ⟨hdelivered, hleft, hpacks⟩ := hstage
    have hbytes := h.released_le hb hcur
    have hpacks_le : itemPacks C.slotBytes (message R.finished).length i ≤ C.slotBytes / 16 := itemPacks_le
    dsimp only at hs
    split at hs
    case isTrue hnil =>
      obtain ⟨rfl, rfl⟩ := Prod.mk.inj (some.inj hs)
      refine ⟨h.fill hb hcur rfl (fun _ _ _ _ _ => rfl) rfl ⟨hdelivered, fun j hj => ?_⟩, ⟨⟨_, _, _, rfl⟩, fun _ => le_rfl⟩, id⟩
      exact hpacks (j / 16) (by omega) (by rw [hnil]; exact List.not_mem_nil) j (by omega) (by omega)
    case isFalse =>
      obtain ⟨hp, hs⟩ := Option.ite_none_right_eq_some.mp hs
      obtain ⟨rfl, rfl⟩ := Prod.mk.inj (some.inj hs)
      have hpack := hleft p hp
      refine ⟨h.fill hb hcur rfl (fun k i' hne j hj => ?_) rfl
        ⟨hdelivered, fun q hq => hleft q (List.mem_filter.mp hq).1, fun q hq hrest j hlow hhigh => ?_⟩, ⟨⟨_, _, _, rfl⟩, fun _ => le_rfl⟩, id⟩
      · have hpacks_le' : itemPacks C.slotBytes (message k).length i' ≤ C.slotBytes / 16 := itemPacks_le
        exact writeBytes_apart hne (by omega) (by omega)
      dsimp only
      by_cases hqp : q = p
      · rw [writeBytes_in (by omega) (by omega), Nat.add_sub_cancel_left]
        exact slot_bytes hd hcount hbytes hdelivered (by omega)
      have hq' : q ∉ left := fun hmem => hrest (List.mem_filter.mpr ⟨hmem, decide_eq_true hqp⟩)
      rw [← hpacks q hq hq' j hlow hhigh]
      exact writeBytes_out (by omega)
  | consuming i =>
    have hcur : R.cur b = some i := by simp only [Receiver.cur, hblock, RecvStage.item]
    have hnot := h.not_consumed hb hcur
    rw [hblock] at hs
    obtain ⟨rfl, rfl⟩ := Prod.mk.inj (some.inj hs)
    refine ⟨h.consume hd hrun hb hblock ?_ ?_, ⟨⟨_, _, _, rfl⟩, fun m => ?_⟩, id⟩
    · simp only [stride]
      split <;> rfl
    · intro R''
      split
      case isTrue => exact stageTakes_enter
      case isFalse => trivial
    simp only [Config.Consumed] at hnot
    simp only [update_apply]
    split
    case isTrue hm =>
      rw [hm]
      omega
    case isFalse => exact le_rfl
  | gone =>
    rw [hblock] at hs
    cases hs

end Taking

end SparkRing.Channel
