import Mathlib.Data.Nat.Size
import Mathlib.Tactic.Ring
import SparkRing.WordRows

/-!
# Words of an arena

One buffer holds the receive and send slots, flag lines and control words of a
session, then its chain area and its link area. Two implementations compute the
offsets. A session of one lane uses a flag line twice.
-/

namespace SparkRing.ArenaWords

open WordRows

/-- Bytes of which words use their own. -/
structure Buffer where
  Word : Type
  Has : Word → Prop
  /-- First byte and size of a word. -/
  range : Word → ℕ × ℕ
  totalBytes : ℕ
  apart : Apart Has range totalBytes

def slotAlignment : ℕ := 4096

/-- Offset of the area behind `bytes` bytes. -/
def chainOffset (bytes : ℕ) : ℕ := (bytes + slotAlignment - 1) / slotAlignment * slotAlignment

/-- A buffer with an area behind it. -/
def Buffer.followedBy (b area : Buffer) : Buffer where
  Word := b.Word ⊕ area.Word
  Has := Sum.elim b.Has area.Has
  range := Sum.elim b.range fun w => (chainOffset b.totalBytes + (area.range w).1, (area.range w).2)
  totalBytes := chainOffset b.totalBytes + area.totalBytes
  apart := by
    have hoff : b.totalBytes ≤ chainOffset b.totalBytes := by
      unfold chainOffset slotAlignment
      omega
    rintro (w | w) hw
    · obtain ⟨hin, hclear⟩ := b.apart w hw
      have hbefore := hin.trans hoff
      refine ⟨hbefore.trans (Nat.le_add_right _ _), ?_⟩
      rintro (w' | w') hw' hne
      · exact hclear w' hw' fun heq => hne (heq ▸ rfl)
      · exact .inl (hbefore.trans (Nat.le_add_right _ _))
    · obtain ⟨hin, hclear⟩ := area.apart w hw
      refine ⟨by simp only [Sum.elim_inr]; omega, ?_⟩
      rintro (w' | w') hw' hne
      · exact .inr (((b.apart w' hw').1.trans hoff).trans (Nat.le_add_right _ _))
      · have hboth := hclear w' hw' fun heq => hne (heq ▸ rfl)
        simp only [Clear, Sum.elim_inr] at hboth ⊢
        omega

def slots : ℕ := 2

def flagStride : ℕ := 128

def flagLines : ℕ := 4

def maxLanes : ℕ := 2

def maxPhases : ℕ := 8

def maxWorld : ℕ := 16

/-- Flag line of a namespace, source, slot and lane. -/
def flagIndex (namespace' source slot lane world lanes : ℕ) : Option ℕ :=
  if 1 < namespace' ∨ world ≤ source ∨ 1 < slot ∨ ¬(1 ≤ lanes ∧ lanes ≤ maxLanes) ∨ maxLanes ≤ lane then none
  else some (namespace' * world * slots * lanes + (source * slots + slot) * lanes + lane)

/-- Flag lines of different places differ, and lie in their area. -/
def FlagsApart (world lanes : ℕ) : Prop :=
  (∀ n source slot lane n' source' slot' lane' line, flagIndex n source slot lane world lanes = some line →
    flagIndex n' source' slot' lane' world lanes = some line → (n, source, slot, lane) = (n', source', slot', lane')) ∧
  ∀ n source slot lane line, flagIndex n source slot lane world lanes = some line → line < world * slots * flagLines

/-- One lane is the only accepted count whose lines do not differ. -/
theorem flagsApart_iff {world lanes : ℕ} (hworld : 0 < world) : FlagsApart world lanes ↔ lanes ≠ 1 := by
  constructor
  · rintro ⟨hinj, -⟩ rfl
    -- lane 1 of slot 0 has the line of lane 0 of slot 1
    have hline : ∀ slot lane, slot + lane = 1 → flagIndex 0 0 slot lane world 1 = some 1 := by
      intro slot lane hsum
      rw [flagIndex, if_neg (by simp only [maxLanes]; omega)]
      simpa using hsum
    exact absurd (hinj _ _ _ _ _ _ _ _ _ (hline 0 1 rfl) (hline 1 0 rfl)) (by decide)
  intro hlanes
  have hspec : ∀ n source slot lane line, flagIndex n source slot lane world lanes = some line →
      n ≤ 1 ∧ source < world ∧ slot < 2 ∧ lane < 2 ∧ line = n * (world * 4) + (source * 4 + (slot * 2 + lane)) := by
    intro n source slot lane line h
    unfold flagIndex at h
    split at h
    case isTrue => cases h
    case isFalse hvalid =>
      simp only [slots, maxLanes, not_or, not_lt, not_le, not_not] at h hvalid
      obtain rfl : lanes = 2 := by omega
      obtain rfl := Option.some.inj h
      refine ⟨hvalid.1, hvalid.2.1, by omega, hvalid.2.2.2.2, ?_⟩
      ring
  refine ⟨fun n source slot lane n' source' slot' lane' line h h' => ?_, fun n source slot lane line h => ?_⟩
  · obtain ⟨-, hs, hl, hi, hline⟩ := hspec _ _ _ _ _ h
    obtain ⟨-, hs', hl', hi', hline'⟩ := hspec _ _ _ _ _ h'
    obtain ⟨rfl, hrest⟩ := digits_inj (by omega) (by omega) (hline.symm.trans hline')
    simp only [Prod.mk.injEq, true_and]
    omega
  · obtain ⟨hn, hs, hl, hi, rfl⟩ := hspec _ _ _ _ _ h
    have := Nat.mul_le_mul_right (world * 4) hn
    simp only [slots, flagLines]
    omega

/-- Byte offsets of one rank's arena. -/
structure ArenaLayout where
  world : ℕ
  slotBytes : ℕ
  world_valid : 2 ≤ world ∧ world ≤ maxWorld
  slot_valid : 0 < slotBytes ∧ slotBytes % slotAlignment = 0 ∧ slotBytes ≤ 2 ^ 40

/-- A word of an arena. -/
inductive ArenaWord
  | recv (source slot : ℕ)
  | flag (line : ℕ)
  | send (slot : ℕ)
  | ctrl (word : ℕ)

namespace ArenaLayout

variable (l : ArenaLayout)

def recvOff : ℕ := 0

def flagOff : ℕ := l.world * slots * l.slotBytes

def sendOff : ℕ := l.flagOff + l.world * slots * flagLines * flagStride

def ctrlOff : ℕ := l.sendOff + slots * l.slotBytes

def totalBytes : ℕ := l.ctrlOff + flagStride

def asTuple : List ℕ := [recvOff, l.flagOff, l.sendOff, l.ctrlOff, l.totalBytes, flagStride, slots]

/-- First byte and size of a word. -/
def range : ArenaWord → ℕ × ℕ
  | .recv source slot => (recvOff + (source * slots + slot) * l.slotBytes, l.slotBytes)
  | .flag line => (l.flagOff + line * flagStride, flagStride)
  | .send slot => (l.sendOff + slot * l.slotBytes, l.slotBytes)
  | .ctrl word => (l.ctrlOff + 4 * word, 4)

def Has : ArenaWord → Prop
  | .recv source slot => source < l.world ∧ slot < slots
  | .flag line => line < l.world * slots * flagLines
  | .send slot => slot < slots
  | .ctrl word => word < flagStride / 4

/-- The rows of an arena. -/
def rows : List Row :=
  [⟨recvOff, l.slotBytes, l.world * slots, l.slotBytes⟩, ⟨l.flagOff, flagStride, l.world * slots * flagLines, flagStride⟩,
    ⟨l.sendOff, l.slotBytes, slots, l.slotBytes⟩, ⟨l.ctrlOff, 4, flagStride / 4, 4⟩]

theorem placed : Placed l.rows 0 l.totalBytes := by
  simp only [rows, Placed, Row.stop, recvOff, totalBytes, ctrlOff, sendOff, flagOff, flagStride]
  omega

end ArenaLayout

/-- The row of a word, and its place there. -/
def ArenaWord.place : ArenaWord → ℕ × ℕ
  | .recv source slot => (0, source * slots + slot)
  | .flag line => (1, line)
  | .send slot => (2, slot)
  | .ctrl word => (3, word)

namespace ArenaLayout

variable {l : ArenaLayout} {w w' : ArenaWord}

theorem row_place (h : l.Has w) : ∃ row, l.rows[w.place.1]? = some row ∧ w.place.2 < row.count ∧
    l.range w = (row.word w.place.2, row.size) := by
  cases w with
  | recv => exact ⟨_, rfl, digits_lt h.1 h.2, rfl⟩
  | flag | send => exact ⟨_, rfl, h, rfl⟩
  | ctrl word => exact ⟨_, rfl, h, by rw [range, Row.word, Nat.mul_comm]; rfl⟩

theorem place_inj (h : l.Has w) (h' : l.Has w') (heq : w.place = w'.place) : w = w' := by
  cases w <;> cases w' <;> simp [ArenaWord.place] at heq
  case recv.recv =>
    obtain ⟨rfl, rfl⟩ := digits_inj h.2 h'.2 heq
    rfl
  all_goals rw [heq]

def buffer (l : ArenaLayout) : Buffer := ⟨_, l.Has, l.range, l.totalBytes, .of_placed l.placed (fun _ => row_place) fun _ _ => place_inj⟩

end ArenaLayout

/-- Byte offsets of an area of `streams` streams, relative to its start. -/
structure AreaLayout (streams maxSlots : ℕ) where
  lanes : ℕ
  slots : ℕ
  slotBytes : ℕ
  lanes_valid : 1 ≤ lanes ∧ lanes ≤ maxLanes
  slots_valid : 2 ≤ slots ∧ slots ≤ maxSlots
  slot_valid : 0 < slotBytes ∧ slotBytes % slotAlignment = 0 ∧ slotBytes ≤ 2 ^ 31

def chainStreams : ℕ := 4

def chainMaxSlots : ℕ := 32

def links : ℕ := 4

def linkMaxSlots : ℕ := 32

abbrev ChainLayout := AreaLayout chainStreams chainMaxSlots

abbrev LinkLayout := AreaLayout links linkMaxSlots

/-- A word of an area; the send slots of a link area are its own slots. -/
inductive AreaWord
  | recv (stream slot : ℕ)
  | send (stream slot : ℕ)
  | flag (stream slot lane : ℕ)
  | ready (stream slot : ℕ)
  | consumed (stream slot : ℕ)
  | sent (stream : ℕ)
  | credit (stream : ℕ)
  | doorbell
  /-- One of the three parameter words of a parameter slot. -/
  | param (slot word : ℕ)

namespace AreaLayout

variable {streams maxSlots : ℕ} (l : AreaLayout streams maxSlots)

def ringBytes : ℕ := streams * l.slots * l.slotBytes

def recvOff (_ : AreaLayout streams maxSlots) : ℕ := 0

def sendOff : ℕ := l.ringBytes

def rflagOff : ℕ := 2 * l.ringBytes

def readyOff : ℕ := l.rflagOff + streams * l.slots * l.lanes * flagStride

def consumedOff : ℕ := l.readyOff + streams * flagStride

def sentOff : ℕ := l.consumedOff + streams * flagStride

def creditOff : ℕ := l.sentOff + streams * flagStride

def ctrlOff : ℕ := l.creditOff + streams * flagStride

def totalBytes : ℕ := l.ctrlOff + flagStride

def asTuple : List ℕ :=
  [l.recvOff, l.sendOff, l.rflagOff, l.readyOff, l.consumedOff, l.sentOff, l.creditOff, l.ctrlOff, l.totalBytes]

/-- First byte and size of a word. -/
def range : AreaWord → ℕ × ℕ
  | .recv stream slot => (l.recvOff + (stream * l.slots + slot) * l.slotBytes, l.slotBytes)
  | .send stream slot => (l.sendOff + (stream * l.slots + slot) * l.slotBytes, l.slotBytes)
  | .flag stream slot lane => (l.rflagOff + ((stream * l.slots + slot) * l.lanes + lane) * flagStride, flagStride)
  | .ready stream slot => (l.readyOff + stream * flagStride + 4 * slot, 4)
  | .consumed stream slot => (l.consumedOff + stream * flagStride + 4 * slot, 4)
  | .sent stream => (l.sentOff + stream * flagStride, 4)
  | .credit stream => (l.creditOff + stream * flagStride, 4)
  | .doorbell => (l.ctrlOff, 4)
  | .param slot word => (l.ctrlOff + 4 * (1 + 4 * slot) + 4 * word, 4)

def Has : AreaWord → Prop
  | .recv stream slot | .send stream slot | .ready stream slot | .consumed stream slot => stream < streams ∧ slot < l.slots
  | .flag stream slot lane => (stream < streams ∧ slot < l.slots) ∧ lane < l.lanes
  | .sent stream | .credit stream => stream < streams
  | .doorbell => True
  | .param slot word => slot < 2 ∧ word < 3

/-- The rows of an area. -/
def rows : List Row :=
  [⟨l.recvOff, l.slotBytes, streams * l.slots, l.slotBytes⟩, ⟨l.sendOff, l.slotBytes, streams * l.slots, l.slotBytes⟩,
    ⟨l.rflagOff, flagStride, streams * l.slots * l.lanes, flagStride⟩, ⟨l.readyOff, 4, streams * 32, 4⟩,
    ⟨l.consumedOff, 4, streams * 32, 4⟩, ⟨l.sentOff, flagStride, streams, 4⟩, ⟨l.creditOff, flagStride, streams, 4⟩,
    ⟨l.ctrlOff, 4, flagStride / 4, 4⟩]

theorem placed : Placed l.rows 0 l.totalBytes := by
  simp only [rows, Placed, Row.stop, totalBytes, ctrlOff, creditOff, sentOff, consumedOff, readyOff, rflagOff, sendOff, recvOff,
    ringBytes, flagStride]
  omega

/-- The row of a word, and its place there. -/
def place : AreaWord → ℕ × ℕ
  | .recv stream slot => (0, stream * l.slots + slot)
  | .send stream slot => (1, stream * l.slots + slot)
  | .flag stream slot lane => (2, (stream * l.slots + slot) * l.lanes + lane)
  | .ready stream slot => (3, stream * 32 + slot)
  | .consumed stream slot => (4, stream * 32 + slot)
  | .sent stream => (5, stream)
  | .credit stream => (6, stream)
  | .doorbell => (7, 0)
  | .param slot word => (7, 1 + 4 * slot + word)

variable {l} {w w' : AreaWord}

theorem row_place (hmax : maxSlots ≤ 32) (h : l.Has w) : ∃ row, l.rows[(l.place w).1]? = some row ∧ (l.place w).2 < row.count ∧
    l.range w = (row.word (l.place w).2, row.size) := by
  cases w with
  | recv | send => exact ⟨_, rfl, digits_lt h.1 h.2, rfl⟩
  | flag => exact ⟨_, rfl, digits_lt (digits_lt h.1.1 h.1.2) h.2, rfl⟩
  | ready stream slot | consumed stream slot =>
    refine ⟨_, rfl, digits_lt h.1 (h.2.trans_le (l.slots_valid.2.trans hmax)), ?_⟩
    simp only [range, place, Row.word, flagStride, Prod.mk.injEq, and_true]
    ring
  | sent | credit => exact ⟨_, rfl, h, rfl⟩
  | doorbell => exact ⟨_, rfl, (by decide : 0 < flagStride / 4), rfl⟩
  | param slot word =>
    have hslot : slot < 2 := h.1
    have hword : word < 3 := h.2
    refine ⟨_, rfl, by simp only [place, flagStride]; omega, ?_⟩
    simp only [range, place, Row.word, Prod.mk.injEq, and_true]
    ring

theorem place_inj (hmax : maxSlots ≤ 32) (h : l.Has w) (h' : l.Has w') (heq : l.place w = l.place w') : w = w' := by
  have hline : ∀ {slot}, slot < l.slots → slot < 32 := fun hslot => hslot.trans_le (l.slots_valid.2.trans hmax)
  cases w <;> cases w' <;> simp [place] at heq
  case recv.recv | send.send =>
    obtain ⟨rfl, rfl⟩ := digits_inj h.2 h'.2 heq
    rfl
  case flag.flag =>
    obtain ⟨hsame, rfl⟩ := digits_inj h.2 h'.2 heq
    obtain ⟨rfl, rfl⟩ := digits_inj h.1.2 h'.1.2 hsame
    rfl
  case ready.ready | consumed.consumed =>
    obtain ⟨rfl, rfl⟩ := digits_inj (hline h.2) (hline h'.2) heq
    rfl
  case param.param slot word slot' word' =>
    have hword : word < 3 := h.2
    have hword' : word' < 3 := h'.2
    obtain ⟨rfl, rfl⟩ : slot = slot' ∧ word = word' := by omega
    rfl
  case sent.sent | credit.credit => rw [heq]
  case doorbell.doorbell => rfl
  all_goals omega

def buffer (hmax : maxSlots ≤ 32) (l : AreaLayout streams maxSlots) : Buffer :=
  ⟨_, l.Has, l.range, l.totalBytes, .of_placed l.placed (fun _ => row_place hmax) fun _ _ => place_inj hmax⟩

end AreaLayout

/-- The memory of a session, with the areas it has. -/
structure Region where
  arena : ArenaLayout
  chain : Option ChainLayout
  link : Option LinkLayout

def Region.chainBuffer (r : Region) : Buffer :=
  match r.chain with
  | none => r.arena.buffer
  | some l => r.arena.buffer.followedBy (l.buffer (le_refl 32))

def Region.buffer (r : Region) : Buffer :=
  match r.link with
  | none => r.chainBuffer
  | some l => r.chainBuffer.followedBy (l.buffer (le_refl 32))

/-- A sum or product that does not overflow. -/
def checked (n : ℕ) : Option ℕ := if n < 2 ^ 64 then some n else none

def roceLayout (world : ℤ) (slotBytes : ℕ) : Option (List ℕ) :=
  if world < 2 ∨ maxWorld < world ∨ slotBytes = 0 ∨ slotBytes % 4096 ≠ 0 ∨ 2 ^ 40 < slotBytes then none
  else do
    let recvBytes ← checked (world.toNat * slots * slotBytes)
    let flagBytes ← checked (world.toNat * slots * flagLines * flagStride)
    let sendBytes ← checked (slots * slotBytes)
    let sendOff ← checked (recvBytes + flagBytes)
    let ctrlOff ← checked (sendOff + sendBytes)
    let total ← checked (ctrlOff + flagStride)
    some [0, recvBytes, sendOff, ctrlOff, total, flagStride, slots]

theorem ArenaLayout.native (l : ArenaLayout) {out : List ℕ} (h : roceLayout l.world l.slotBytes = some out) : out = l.asTuple := by
  unfold roceLayout at h
  split at h
  · cases h
  simp only [Option.bind_eq_bind, Option.bind_eq_some_iff, checked, Option.ite_none_right_eq_some, Option.some.injEq, Int.toNat_natCast] at h
  obtain ⟨_, ⟨-, rfl⟩, _, ⟨-, rfl⟩, _, ⟨-, rfl⟩, _, ⟨-, rfl⟩, _, ⟨-, rfl⟩, _, ⟨-, rfl⟩, rfl⟩ := h
  rfl

/-- 64-bit arithmetic wraps. -/
def wrap (n : ℕ) : ℕ := n % 2 ^ 64

def roceAreaLayout (streams maxSlots : ℕ) (lanes slots : ℤ) (slotBytes : ℕ) : Option (List ℕ) :=
  if lanes < 1 ∨ maxLanes < lanes ∨ slots < 2 ∨ maxSlots < slots ∨ slotBytes = 0 ∨ slotBytes % 4096 ≠ 0 ∨ 2 ^ 31 < slotBytes then none
  else
    let ring := wrap (wrap (streams * slots.toNat) * slotBytes)
    let rflag := wrap (2 * ring)
    let ready := wrap (rflag + wrap (wrap (wrap (streams * slots.toNat) * lanes.toNat) * flagStride))
    let consumed := wrap (ready + streams * flagStride)
    let sent := wrap (consumed + streams * flagStride)
    let credit := wrap (sent + streams * flagStride)
    let ctrl := wrap (credit + streams * flagStride)
    some [0, ring, rflag, ready, consumed, sent, credit, ctrl, wrap (ctrl + flagStride)]

def roceChainLayout := roceAreaLayout chainStreams chainMaxSlots

def roceLinkLayout := roceAreaLayout links linkMaxSlots

theorem AreaLayout.native {streams maxSlots : ℕ} (hstreams : streams ≤ 4) (hmax : maxSlots ≤ 32) (l : AreaLayout streams maxSlots)
    {out : List ℕ} (h : roceAreaLayout streams maxSlots l.lanes l.slots l.slotBytes = some out) : out = l.asTuple := by
  unfold roceAreaLayout at h
  split at h
  · cases h
  have hrings : streams * l.slots ≤ 4 * 32 := Nat.mul_le_mul hstreams (l.slots_valid.2.trans hmax)
  have hring : l.ringBytes ≤ 4 * 32 * 2 ^ 31 := Nat.mul_le_mul hrings l.slot_valid.2.2
  have hlanes : streams * l.slots * l.lanes ≤ 4 * 32 * 2 := Nat.mul_le_mul hrings l.lanes_valid.2
  have hwrap : ∀ n, n < 2 ^ 64 → wrap n = n := fun n => Nat.mod_eq_of_lt
  dsimp only [AreaLayout.ringBytes] at h hring
  rw [Int.toNat_natCast, Int.toNat_natCast] at h
  unfold flagStride at h
  simp (disch := omega) only [hwrap] at h
  exact (Option.some.inj h).symm

/-- Word indices of the device counters. -/
structure CounterLayout where
  blocks : ℕ
  blocks_valid : 1 ≤ blocks ∧ blocks &&& (blocks - 1) = 0

inductive CounterWord
  | epoch
  | stage (grid : ℕ)
  | tail (grid : ℕ)
  | poison
  | phase (grid phase : ℕ)

def gridClass (grid : ℕ) : Option ℕ := if grid < 1 ∨ grid &&& (grid - 1) ≠ 0 then none else some (grid.size - 1)

namespace CounterLayout

variable (l : CounterLayout)

def classes : ℕ := l.blocks.size

def words : ℕ := 2 + (1 + maxPhases) * l.classes

/-- The index of a word, of a grid up to `blocks`. -/
def word : CounterWord → Option ℕ
  | .epoch => some 0
  | .stage grid => (gridClass grid).map (1 + ·)
  | .tail grid => (gridClass grid).map (1 + l.classes + ·)
  | .poison => some (1 + 2 * l.classes)
  | .phase grid phase => if 1 ≤ phase ∧ phase < maxPhases then (gridClass grid).map (2 + 2 * l.classes + (phase - 1) * l.classes + ·) else none

def Has : CounterWord → Prop
  | .stage grid | .tail grid | .phase grid _ => grid ≤ l.blocks
  | _ => True

variable {l} {w w' : CounterWord} {i i' : ℕ}

theorem gridClass_spec {grid c : ℕ} (hgrid : grid ≤ l.blocks) (h : gridClass grid = some c) : grid = 2 ^ c ∧ c < l.classes := by
  rw [gridClass, Option.ite_none_left_eq_some, not_or, not_not] at h
  obtain ⟨⟨hpos, hpow⟩, hc⟩ := h
  obtain ⟨k, rfl⟩ := (Nat.and_sub_one_eq_zero_iff_isPowerOfTwo (by omega)).mp hpow
  rw [Nat.size_pow, Nat.add_sub_cancel, Option.some.injEq] at hc
  subst hc
  exact ⟨rfl, Nat.lt_size.mpr hgrid⟩

theorem word_eq (h : l.Has w) (hw : l.word w = some i) : w = .epoch ∧ i = 0 ∨ w = .poison ∧ i = 1 + 2 * l.classes ∨
    ∃ c < l.classes, w = .stage (2 ^ c) ∧ i = 1 + c ∨ w = .tail (2 ^ c) ∧ i = 1 + l.classes + c ∨
      ∃ phase < 8, 1 ≤ phase ∧ w = .phase (2 ^ c) phase ∧ i = 2 + 2 * l.classes + ((phase - 1) * l.classes + c) := by
  cases w with
  | epoch => exact .inl ⟨rfl, (Option.some.inj hw).symm⟩
  | poison => exact .inr (.inl ⟨rfl, (Option.some.inj hw).symm⟩)
  | stage | tail =>
    obtain ⟨c, hclass, rfl⟩ := Option.map_eq_some_iff.mp hw
    obtain ⟨rfl, hc⟩ := gridClass_spec h hclass
    exact .inr (.inr ⟨c, hc, by simp⟩)
  | phase grid phase =>
    obtain ⟨hphase, hmap⟩ := Option.ite_none_right_eq_some.mp hw
    obtain ⟨c, hclass, rfl⟩ := Option.map_eq_some_iff.mp hmap
    obtain ⟨rfl, hc⟩ := gridClass_spec h hclass
    exact .inr (.inr ⟨c, hc, .inr (.inr ⟨phase, hphase.2, hphase.1, rfl, Nat.add_assoc _ _ _⟩)⟩)

theorem word_lt (h : l.Has w) (hw : l.word w = some i) : i < l.words := by
  unfold words maxPhases
  rcases word_eq h hw with ⟨-, rfl⟩ | ⟨-, rfl⟩ | ⟨c, hc, ⟨-, rfl⟩ | ⟨-, rfl⟩ | ⟨phase, hphase, hone, -, rfl⟩⟩
  any_goals omega
  have : (phase - 1) * l.classes + c < 7 * l.classes := digits_lt (by omega) hc
  omega

theorem word_inj (h : l.Has w) (h' : l.Has w') (hw : l.word w = some i) (hw' : l.word w' = some i) : w = w' := by
  rcases word_eq h hw with ⟨rfl, rfl⟩ | ⟨rfl, rfl⟩ | ⟨c, hc, ⟨rfl, rfl⟩ | ⟨rfl, rfl⟩ | ⟨phase, -, hone, rfl, rfl⟩⟩ <;>
    rcases word_eq h' hw' with ⟨rfl, heq⟩ | ⟨rfl, heq⟩ | ⟨c', hc', ⟨rfl, heq⟩ | ⟨rfl, heq⟩ | ⟨phase', -, hone', rfl, heq⟩⟩
  any_goals omega
  · rfl
  · rfl
  · rw [Nat.add_left_cancel heq]
  · rw [Nat.add_left_cancel heq]
  · obtain ⟨hphase, rfl⟩ := digits_inj hc hc' (Nat.add_left_cancel heq)
    obtain rfl : phase = phase' := by omega
    rfl

end CounterLayout

/-- The words of a region, a session's flag lines and its counters are apart, and the native layouts are these. -/
structure NoCollision (r : Region) (counters : CounterLayout) (lanes : ℕ) : Prop where
  flags : FlagsApart r.arena.world lanes
  words : Apart r.buffer.Has r.buffer.range r.buffer.totalBytes
  counters_lt : ∀ w i, counters.Has w → counters.word w = some i → i < counters.words
  counters_inj : ∀ w w' i, counters.Has w → counters.Has w' → counters.word w = some i → counters.word w' = some i → w = w'
  arena : ∀ out, roceLayout r.arena.world r.arena.slotBytes = some out → out = r.arena.asTuple
  chain : ∀ l ∈ r.chain, ∀ out, roceChainLayout l.lanes l.slots l.slotBytes = some out → out = l.asTuple
  link : ∀ l ∈ r.link, ∀ out, roceLinkLayout l.lanes l.slots l.slotBytes = some out → out = l.asTuple

/-- Words of a session never collide exactly where it does not have a single lane. -/
theorem words_never_collide_iff (r : Region) (counters : CounterLayout) (lanes : ℕ) : NoCollision r counters lanes ↔ lanes ≠ 1 := by
  have hworld : 0 < r.arena.world := Nat.zero_lt_of_lt r.arena.world_valid.1
  refine ⟨fun h => (flagsApart_iff hworld).mp h.flags, fun h => ⟨(flagsApart_iff hworld).mpr h, r.buffer.apart, fun _ _ => CounterLayout.word_lt,
    fun _ _ _ => CounterLayout.word_inj, fun _ => r.arena.native, fun l _ _ => ?_, fun l _ _ => ?_⟩⟩
  · exact l.native (by decide) (by decide)
  · exact l.native (by decide) (by decide)

/-- Two ranks with one lane: lane 1 of slot 0 and lane 0 of slot 1 share flag line 1. -/
theorem one_lane_shares_flag_line : flagIndex 0 0 0 1 2 1 = some 1 ∧ flagIndex 0 0 1 0 2 1 = some 1 ∧
    ¬∀ r counters, NoCollision r counters 1 := by
  refine ⟨rfl, rfl, fun h => ?_⟩
  let r : Region := ⟨⟨2, 4096, by decide, by decide⟩, none, none⟩
  exact absurd ((h r ⟨1, by decide, rfl⟩).flags.1 0 0 0 1 0 0 1 0 1 rfl rfl) (by decide)

end SparkRing.ArenaWords
