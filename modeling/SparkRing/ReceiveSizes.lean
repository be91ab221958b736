import SparkRing.ChannelItems

/-!
# A receive launch and the sizes at both ends

A message's items carry headers that hold the item's bytes and, on the last item, a mark
and the message's bytes modulo 16. The blocks of a receive launch take its items in
strides, compare each header with their own and copy the item while the rank is not
poisoned. Sends and receives of different sizes differ in a header that both have.
-/

namespace SparkRing.ReceiveSizes

open TransitionSystem Channel Function
open Nat (mod_eq_of_lt mod_lt)

/-- The mark of a last item. -/
def lastItem : ℕ := 2 ^ 31

/-- Header word of an item of a message. -/
def header (slotBytes nbytes index : ℕ) : ℕ :=
  let word := min slotBytes (padded nbytes - index * slotBytes)
  if index = items slotBytes nbytes - 1 then word ||| (lastItem ||| nbytes % 16) else word

/-- Header word of an item, from what a kernel is launched with. -/
def kernelHeader (piecePacks packs tail count item : ℕ) : ℕ :=
  let left := packs - item * piecePacks
  let carried := if piecePacks < left then piecePacks else left
  if item = count - 1 then carried * 16 ||| lastItem ||| tail else carried * 16

/-- Header word that the kernels of a message compute. -/
def word (slotBytes nbytes item : ℕ) : ℕ :=
  kernelHeader (slotBytes / 16) (padded nbytes / 16) (nbytes % 16) (items slotBytes nbytes) item

section

variable {slotBytes n m : ℕ}

theorem padded_mod (n : ℕ) : padded n % 16 = 0 := Nat.mul_mod_left _ _

/-- The bytes of a last item, its mark and the message's tail have bits of their own. -/
theorem marked_eq {carried tail : ℕ} (hcarried : carried < 2 ^ 26) (htail : tail < 16) :
    carried * 16 ||| (lastItem ||| tail) = carried * 16 + (2 ^ 31 + tail) := by
  have hlow : carried * 16 ||| tail = carried * 16 + tail := by
    have h := Nat.two_pow_add_eq_or_of_lt (i := 4) htail carried
    rw [show 2 ^ 4 * carried = carried * 16 from Nat.mul_comm _ _] at h
    exact h.symm
  have hhigh := Nat.two_pow_add_eq_or_of_lt (i := 31) (b := carried * 16 + tail) (by omega) 1
  rw [← Nat.or_assoc, Nat.or_comm _ lastItem, Nat.or_assoc, hlow]
  exact hhigh.symm.trans (by omega)

theorem itemPacks_bytes (hslot : slotBytes % 16 = 0) (i : ℕ) : itemPacks slotBytes n i * 16 = min slotBytes (padded n - i * slotBytes) := by
  have hpadded := padded_mod n
  obtain ⟨packs, rfl⟩ : ∃ packs, slotBytes = packs * 16 := ⟨slotBytes / 16, by omega⟩
  rw [itemPacks, Nat.mul_div_cancel _ (by decide), ← Nat.mul_assoc]
  omega

theorem header_eq (hslot : slotBytes % 16 = 0) (hle : slotBytes ≤ 2 ^ 29) (i : ℕ) : header slotBytes n i = itemHeader slotBytes n i := by
  have hpacks : itemPacks slotBytes n i ≤ slotBytes / 16 := itemPacks_le
  rw [header, itemHeader, ← itemPacks_bytes hslot]
  split
  · exact marked_eq (by omega) (mod_lt _ (by decide))
  · rfl

/-- The kernels compute the header of the protocol. -/
theorem word_eq (hslot : slotBytes % 16 = 0) (hle : slotBytes ≤ 2 ^ 29) (i : ℕ) : word slotBytes n i = itemHeader slotBytes n i := by
  have hpacks : itemPacks slotBytes n i ≤ slotBytes / 16 := itemPacks_le
  have hcarried : (if slotBytes / 16 < padded n / 16 - i * (slotBytes / 16) then slotBytes / 16
      else padded n / 16 - i * (slotBytes / 16)) = itemPacks slotBytes n i := by
    rw [itemPacks]
    split <;> omega
  rw [word, kernelHeader, itemHeader]
  simp only [hcarried]
  split
  · rw [Nat.or_assoc]
    exact marked_eq (by omega) (mod_lt _ (by decide))
  · rfl

theorem padded_le_items (hpos : 0 < slotBytes) (n : ℕ) : padded n ≤ items slotBytes n * slotBytes := by
  have hceil := Nat.div_add_mod (padded n + slotBytes - 1) slotBytes
  have hrest := mod_lt (padded n + slotBytes - 1) hpos
  have hle : (padded n + slotBytes - 1) / slotBytes * slotBytes ≤ items slotBytes n * slotBytes :=
    Nat.mul_le_mul_right _ (Nat.le_max_right _ _)
  rw [Nat.mul_comm] at hceil
  omega

theorem last_le_padded (hpos : 0 < slotBytes) (n : ℕ) : (items slotBytes n - 1) * slotBytes ≤ padded n := by
  rcases Nat.le_total ((padded n + slotBytes - 1) / slotBytes) 1 with hle | hle
  · rw [items, Nat.max_eq_left hle]
    omega
  have hfloor := Nat.div_mul_le_self (padded n + slotBytes - 1) slotBytes
  rw [items, Nat.max_eq_right hle, Nat.sub_mul]
  omega

/-- The last item carries what the items before it leave. -/
theorem last_packs (hslot : slotBytes % 16 = 0) (hpos : 0 < slotBytes) (n : ℕ) :
    itemPacks slotBytes n (items slotBytes n - 1) * 16 + (items slotBytes n - 1) * slotBytes = padded n := by
  have hall := padded_le_items hpos n
  have hlast := last_le_padded hpos n
  have hnext : items slotBytes n * slotBytes = (items slotBytes n - 1) * slotBytes + slotBytes := by
    rw [← Nat.succ_mul, Nat.succ_eq_add_one, Nat.sub_add_cancel (items_pos slotBytes n)]
  rw [itemPacks_bytes hslot]
  omega

/-- Messages of different sizes differ in the header of an item that both have. -/
theorem word_differs (hslot : slotBytes % 16 = 0) (hpos : 0 < slotBytes) (hle : slotBytes ≤ 2 ^ 29) (h : n ≠ m) :
    ∃ i, i < items slotBytes n ∧ i < items slotBytes m ∧ word slotBytes n i ≠ word slotBytes m i := by
  wlog hitems : items slotBytes n ≤ items slotBytes m generalizing n m
  · obtain ⟨i, hm, hn, hne⟩ := this h.symm (Nat.le_of_not_le hitems)
    exact ⟨i, hn, hm, hne.symm⟩
  have hn := items_pos slotBytes n
  refine ⟨items slotBytes n - 1, by omega, by omega, fun hsame => ?_⟩
  rw [word_eq hslot hle, word_eq hslot hle, itemHeader, itemHeader, if_pos rfl] at hsame
  have hpacks : itemPacks slotBytes m (items slotBytes n - 1) ≤ slotBytes / 16 := itemPacks_le
  split_ifs at hsame with hlast
  · have hleft := last_packs hslot hpos n
    have hright := last_packs hslot hpos m
    rw [← hlast] at hright
    simp only [padded] at hleft hright
    omega
  · omega

end

/-- A receive launch and the message that comes in at its first item. -/
structure Launch where
  slotBytes : ℕ
  blocks : ℕ
  /-- Bytes of the message that the send posts. -/
  sent : ℕ
  /-- Bytes of the message that the launch receives. -/
  received : ℕ
  /-- Slot bytes are a positive multiple of 4096 up to 2^29. -/
  slotBytesValid : 0 < slotBytes ∧ slotBytes % 4096 = 0 ∧ slotBytes ≤ 2 ^ 29
  /-- A launch has 1 to 64 blocks. -/
  blocksValid : 1 ≤ blocks ∧ blocks ≤ 64

/-- Where a block of the launch is. -/
inductive Stage
  | waiting (item : ℕ)
  /-- Its first thread is about to read the poison word. -/
  | compared (item : ℕ)
  /-- Left the launch. -/
  | gone
  deriving DecidableEq

structure State where
  block : ℕ → Stage
  /-- The rank's poison word is set. -/
  poison : Bool
  /-- Items that were copied out. -/
  accepted : ℕ → Bool

/-- How a block's wait for the flags of an item ends. -/
inductive Seen
  /-- It sees the flags of an item of the message, or the poison word. -/
  | message
  /-- It sees flags from behind the message, and some header. -/
  | behind (header : ℕ)
  /-- It runs into its limit. -/
  | limit

/-- What happens during a launch. -/
inductive Action
  /-- A block's wait ends, and its first thread compares the header of a healthy rank. -/
  | look (b : ℕ) (seen : Seen)
  /-- A block reads the poison word and copies its item, or leaves. -/
  | settle (b : ℕ)
  /-- The rank is poisoned from outside the launch. -/
  | poison

namespace Launch

variable (L : Launch)

/-- Items of the receive. -/
def count : ℕ := items L.slotBytes L.received

/-- Items of the send. -/
def coming : ℕ := items L.slotBytes L.sent

/-- A block goes to an item of the launch, or leaves. -/
def enter (i : ℕ) : Stage := if i < L.count then .waiting i else .gone

def initial : State := ⟨L.enter, false, fun _ => false⟩

/-- The poison word after a wait and what follows it; `none` where the wait goes on. -/
def look (poison : Bool) (i : ℕ) : Seen → Option Bool
  | .message =>
    if poison = true ∨ i < L.coming then
      some (poison || decide (word L.slotBytes L.sent i ≠ word L.slotBytes L.received i))
    else none
  | .behind header =>
    if L.coming ≤ i then some (poison || decide (header ≠ word L.slotBytes L.received i)) else none
  | .limit => some true

/-- One step of the launch. -/
def step (s : State) : Action → Option State
  | .look b seen =>
    match s.block b with
    | .waiting i =>
      if b < L.blocks then
        (L.look s.poison i seen).map fun poison =>
          { s with block := update s.block b (.compared i), poison }
      else none
    | _ => none
  | .settle b =>
    match s.block b with
    | .compared i =>
      if b < L.blocks then
        if s.poison then some { s with block := update s.block b .gone }
        else
          some { s with
            block := update s.block b (L.enter (i + L.blocks))
            accepted := update s.accepted i true }
      else none
    | _ => none
  | .poison => some { s with poison := true }

/-- The items that a block takes one after another. -/
inductive Takes (b : ℕ) : ℕ → Prop
  /-- Its first item. -/
  | enter : b < L.count → Takes b b
  /-- The next one. -/
  | stride {i : ℕ} : Takes b i → i + L.blocks < L.count → Takes b (i + L.blocks)

/-- Every block left. -/
def Ended (s : State) : Prop := ∀ b < L.blocks, s.block b = .gone

/-- The headers of both ends agree on an item. -/
def Alike (i : ℕ) : Prop := i < L.coming → word L.slotBytes L.sent i = word L.slotBytes L.received i

/-- A block accepted its items before one. -/
def Passed (accepted : ℕ → Bool) (b n : ℕ) : Prop := ∀ j < n, j % L.blocks = b → accepted j = true

/-- What holds of a block at a stage. -/
def At (poison : Bool) (accepted : ℕ → Bool) (b : ℕ) : Stage → Prop
  | .waiting i => i < L.count ∧ i % L.blocks = b ∧ L.Passed accepted b i
  | .compared i => (i < L.count ∧ i % L.blocks = b ∧ L.Passed accepted b i) ∧ (poison = true ∨ L.Alike i)
  | .gone => poison = true ∨ L.Passed accepted b L.count

/-- What holds in every state of a launch. -/
structure Inv (s : State) : Prop where
  block : ∀ b < L.blocks, L.At s.poison s.accepted b (s.block b)
  accepted : ∀ i, s.accepted i = true → L.Alike i

/-- Steps that a block at a stage has left, at most. -/
def ahead : Stage → ℕ
  | .waiting i => 2 * (L.count - i) + 2
  | .compared i => 2 * (L.count - i) + 1
  | .gone => 0

/-- Steps that the blocks have left, at most. -/
def left (s : State) : ℕ := ∑ b ∈ Finset.range L.blocks, L.ahead (s.block b)

/-- A step of one of the launch's blocks. -/
def own : Action → Prop
  | .poison => False
  | _ => True

/-- A step that needs neither a later message nor a limit. -/
def sure : Action → Prop
  | .look _ .message | .settle _ => True
  | _ => False

variable {L} {s t : State} {b i : ℕ}

theorem own_of_sure : ∀ {a : Action}, sure a → own a
  | .look .., _ => trivial
  | .settle .., _ => trivial

theorem takes_iff (hb : b < L.blocks) : L.Takes b i ↔ i < L.count ∧ i % L.blocks = b := by
  constructor
  · intro h
    induction h with
    | enter h => exact ⟨h, mod_eq_of_lt hb⟩
    | stride _ hlt ih => exact ⟨hlt, by rw [Nat.add_mod_right, ih.2]⟩
  rintro ⟨hi, hmod⟩
  induction i using Nat.strong_induction_on with
  | h i ih =>
    by_cases hfirst : i < L.blocks
    · rw [mod_eq_of_lt hfirst] at hmod
      exact hmod ▸ .enter (hmod ▸ hi)
    have hback : i - L.blocks + L.blocks = i := by omega
    have htakes := ih (i - L.blocks) (by omega) (by omega) (by rw [← hmod, ← hback]; simp)
    exact hback ▸ htakes.stride (by omega)

/-- One block takes an item, whatever the number of blocks. -/
theorem takes_once (L : Launch) (h : i < L.count) : ∃! b, b < L.blocks ∧ L.Takes b i := by
  have hlt : i % L.blocks < L.blocks := mod_lt _ L.blocksValid.1
  exact ⟨i % L.blocks, ⟨hlt, (takes_iff hlt).mpr ⟨h, rfl⟩⟩, fun b ⟨hb, hi⟩ => ((takes_iff hb).mp hi).2.symm⟩

/-- A block that accepted its items before one accepted those before its next one. -/
theorem Passed.stride {accepted : ℕ → Bool} (h : L.Passed accepted b i) (hi : accepted i = true)
    (hmod : i % L.blocks = b) : L.Passed accepted b (i + L.blocks) := by
  intro j hj hjb
  rcases Nat.lt_or_ge j i with hlt | hge
  · exact h j hlt hjb
  have hzero := Nat.sub_mod_eq_zero_of_mod_eq (hjb.trans hmod.symm)
  rw [mod_eq_of_lt (by omega)] at hzero
  obtain rfl : j = i := by omega
  exact hi

/-- A block that goes to an item, or leaves behind the last. -/
theorem at_enter {poison : Bool} {accepted : ℕ → Bool} (hmod : i < L.count → i % L.blocks = b)
    (h : L.Passed accepted b i) : L.At poison accepted b (L.enter i) := by
  unfold enter
  split
  case isTrue hi => exact ⟨hi, hmod hi, h⟩
  case isFalse hi => exact .inr fun j hj => h j (by omega)

theorem inv_initial : L.Inv L.initial where
  block b hb := at_enter (fun _ => mod_eq_of_lt hb) fun j hj hmod => by
    rw [mod_eq_of_lt (by omega)] at hmod
    omega
  accepted _ h := nomatch h

/-- A block goes to another stage, while poison and accepted items stay. -/
theorem Inv.goto (h : L.Inv s) {stage : Stage} {poison : Bool} {accepted : ℕ → Bool}
    (hpoison : s.poison = true → poison = true) (hkeep : ∀ i, s.accepted i = true → accepted i = true)
    (hstage : b < L.blocks → L.At poison accepted b stage) (halike : ∀ i, accepted i = true → L.Alike i) :
    L.Inv ⟨update s.block b stage, poison, accepted⟩ where
  block c hc := by
    have hpassed : ∀ n, L.Passed s.accepted c n → L.Passed accepted c n := fun n hn j hj hjc => hkeep j (hn j hj hjc)
    by_cases hcb : c = b
    · subst hcb
      simpa only [update_self] using hstage hc
    have hold := h.block c hc
    simp only [update_of_ne hcb]
    generalize s.block c = old at hold ⊢
    cases old with
    | waiting i => exact ⟨hold.1, hold.2.1, hpassed i hold.2.2⟩
    | compared i => exact ⟨⟨hold.1.1, hold.1.2.1, hpassed i hold.1.2.2⟩, hold.2.imp_left hpoison⟩
    | gone => exact hold.imp hpoison (hpassed _)
  accepted := halike

/-- A wait keeps the poison, and a header that differs sets it. -/
theorem look_spec {poison poison' : Bool} {seen : Seen} (h : L.look poison i seen = some poison') :
    (poison = true → poison' = true) ∧ (poison' = true ∨ L.Alike i) := by
  cases seen with
  | message =>
    simp only [look, Option.ite_none_right_eq_some, Option.some.injEq] at h
    obtain ⟨-, rfl⟩ := h
    by_cases hsame : word L.slotBytes L.sent i = word L.slotBytes L.received i
    · exact ⟨fun hp => by simp [hp], .inr fun _ => hsame⟩
    · exact ⟨fun hp => by simp [hp], .inl (by simp [hsame])⟩
  | behind header =>
    simp only [look, Option.ite_none_right_eq_some, Option.some.injEq] at h
    obtain ⟨hge, rfl⟩ := h
    exact ⟨fun hp => by simp [hp], .inr fun hlt => absurd hge (Nat.not_le.mpr hlt)⟩
  | limit =>
    cases h
    exact ⟨fun _ => rfl, .inl rfl⟩

/-- A step keeps what holds, and a block's step brings the end nearer. -/
theorem Inv.step (h : L.Inv s) {a : Action} (hstep : L.step s a = some t) : L.Inv t ∧ (own a → L.left t < L.left s) := by
  cases a with
  | look b seen =>
    simp only [Launch.step] at hstep
    split at hstep
    case h_1 i hi =>
      obtain ⟨hb, hstep⟩ := Option.ite_none_right_eq_some.mp hstep
      obtain ⟨poison, hlook, rfl⟩ := Option.map_eq_some_iff.mp hstep
      obtain ⟨hkeep, halike⟩ := look_spec hlook
      have hat := h.block b hb
      rw [hi] at hat
      refine ⟨h.goto hkeep (fun _ => id) (fun _ => ⟨hat, halike⟩) h.accepted,
        fun _ => LaunchItems.sum_update_lt hb ?_⟩
      rw [hi]
      exact Nat.lt_succ_self _
    case h_2 => cases hstep
  | settle b =>
    simp only [Launch.step] at hstep
    split at hstep
    case h_1 i hi =>
      obtain ⟨hb, hstep⟩ := Option.ite_none_right_eq_some.mp hstep
      have hat := h.block b hb
      rw [hi] at hat
      obtain ⟨⟨-, hmod, hpassed⟩, halike⟩ := hat
      cases hpoison : s.poison with
      | true =>
        rw [hpoison, if_pos rfl] at hstep
        cases hstep
        refine ⟨h.goto (fun _ => rfl) (fun _ => id) (fun _ => .inl rfl) h.accepted,
          fun _ => LaunchItems.sum_update_lt hb ?_⟩
        rw [hi]
        exact Nat.succ_pos _
      | false =>
        rw [hpoison, if_neg Bool.false_ne_true] at hstep
        rw [hpoison] at halike
        cases hstep
        have hkeep : ∀ j, s.accepted j = true → update s.accepted i true j = true := by
          intro j hj
          rw [update_apply, hj, ite_self]
        refine ⟨h.goto (by simp [hpoison]) hkeep (fun _ => at_enter (fun _ => by rw [Nat.add_mod_right, hmod]) ?_) fun j hj => ?_,
          fun _ => LaunchItems.sum_update_lt hb ?_⟩
        · exact Passed.stride (fun j hj hjb => hkeep j (hpassed j hj hjb)) (update_self ..) hmod
        · by_cases hji : j = i
          · exact hji ▸ halike.resolve_left Bool.false_ne_true
          · rw [update_of_ne hji] at hj
            exact h.accepted j hj
        have hpos := L.blocksValid.1
        rw [hi, enter]
        split <;> simp only [ahead] <;> omega
    case h_2 => cases hstep
  | poison =>
    cases hstep
    refine ⟨⟨fun b hb => ?_, h.accepted⟩, fun hown => hown.elim⟩
    have hat := h.block b hb
    cases hstage : s.block b <;> rw [hstage] at hat
    · exact hat
    · exact ⟨hat.1, .inl rfl⟩
    · exact .inl rfl

/-- Ends of different sizes differ in an item of both. -/
theorem differs (h : L.sent ≠ L.received) : ∃ i, i < L.coming ∧ i < L.count ∧ word L.slotBytes L.sent i ≠ word L.slotBytes L.received i :=
  word_differs (by have := L.slotBytesValid; omega) L.slotBytesValid.1 L.slotBytesValid.2.2 h

/-- A launch that ended on a healthy rank accepted every item. -/
theorem Inv.all_of_ended (h : L.Inv s) (hend : L.Ended s) (hpoison : s.poison = false) (hi : i < L.count) : s.accepted i = true := by
  have hc : i % L.blocks < L.blocks := mod_lt _ L.blocksValid.1
  have hat := h.block _ hc
  rw [hend _ hc, hpoison] at hat
  exact hat.resolve_left Bool.false_ne_true i hi rfl

/-- While some block has not left, some step needs no limit. -/
theorem Inv.progress (h : L.Inv s) (hend : ¬L.Ended s) : ∃ a t, sure a ∧ L.step s a = some t := by
  have hblock : ∀ b < L.blocks, s.block b ≠ .gone →
      (∀ i, s.block b = .waiting i → s.poison = true ∨ i < L.coming) → ∃ a t, sure a ∧ L.step s a = some t := by
    intro b hb hgone hlook
    cases hstage : s.block b with
    | waiting i =>
      obtain ⟨t, ht⟩ : ∃ t, L.step s (.look b .message) = some t :=
        Option.isSome_iff_exists.mp (by simp [Launch.step, hstage, hb, look, hlook i hstage])
      exact ⟨.look b .message, t, trivial, ht⟩
    | compared i =>
      obtain ⟨t, ht⟩ : ∃ t, L.step s (.settle b) = some t :=
        Option.isSome_iff_exists.mp (by cases hpoison : s.poison <;> simp [Launch.step, hstage, hb, hpoison])
      exact ⟨.settle b, t, trivial, ht⟩
    | gone => exact absurd hstage hgone
  obtain ⟨b, hb, hgone⟩ : ∃ b < L.blocks, s.block b ≠ .gone := by
    simpa [Ended] using hend
  by_cases hlook : ∀ i, s.block b = .waiting i → s.poison = true ∨ i < L.coming
  · exact hblock b hb hgone hlook
  push Not at hlook
  obtain ⟨i, hi, hhealthy, hbehind⟩ := hlook
  have hat := h.block b hb
  rw [hi] at hat
  have hdiff : L.sent ≠ L.received := fun hsame =>
    absurd hat.1 (Nat.not_lt.mpr (by rw [count, ← hsame]; exact hbehind))
  -- The block that takes an item in which the ends differ has not passed it.
  obtain ⟨k, hcoming, hcount, hne⟩ := differs hdiff
  have hnot : s.accepted k ≠ true := fun hk => hne (h.accepted k hk hcoming)
  have hc : k % L.blocks < L.blocks := mod_lt _ L.blocksValid.1
  have hatk := h.block _ hc
  refine hblock (k % L.blocks) hc (fun hleft => ?_) fun j hj => .inr ?_
  · rw [hleft] at hatk
    exact hnot (hatk.resolve_left hhealthy k hcount rfl)
  rw [hj] at hatk
  by_contra hge
  exact hnot (hatk.2.2 k (by omega) rfl)

end Launch

open Launch

/-- A receive of another size than the send at its first item is caught: the ends differ
in the header of an item of both, every item is taken by one block, and whatever the
blocks see the launch ends with the rank poisoned and some item not accepted. A receive of
the same size computes the headers of the send, which hold the bytes posted, and without a
limit or poison from outside it ends with every item accepted. -/
theorem sizes_are_compared (L : Launch) :
    (∀ i < L.count, ∃! b, b < L.blocks ∧ L.Takes b i) ∧
    (L.sent ≠ L.received →
      (∃ i, i < L.coming ∧ i < L.count ∧ word L.slotBytes L.sent i ≠ word L.slotBytes L.received i) ∧
      ∀ s, Reachable L.step Unrestricted L.initial s →
        (∃ i < L.count, s.accepted i = false) ∧ (¬L.Ended s → ∃ a t, sure a ∧ L.step s a = some t) ∧
          Inevitable L.step own (fun t => L.Ended t ∧ t.poison = true) s) ∧
    (L.sent = L.received →
      (∀ i < L.count, word L.slotBytes L.received i = header L.slotBytes L.received i ∧
        headerBytes (word L.slotBytes L.received i) =
          min L.slotBytes (padded L.received - i * L.slotBytes)) ∧
      ∀ s, Reachable L.step (fun _ a => sure a) L.initial s →
        s.poison = false ∧ Inevitable L.step sure (fun t => L.Ended t ∧ ∀ i < L.count, t.accepted i = true) s) := by
  obtain ⟨-, hslot, hle⟩ := L.slotBytesValid
  have hpacks : L.slotBytes % 16 = 0 := by omega
  refine ⟨fun i hi => L.takes_once hi, fun hdiff => ⟨differs hdiff, fun s hs => ?_⟩, fun hsame => ⟨fun i _ => ?_, fun s hs => ?_⟩⟩
  · obtain ⟨k, hcoming, hcount, hne⟩ := differs hdiff
    have hnot : ∀ {t}, L.Inv t → t.accepted k ≠ true := fun ht hk => hne (ht.accepted k hk hcoming)
    have hinv : L.Inv s := hs.invariant L.Inv inv_initial fun _ _ _ _ hs _ hstep => (hs.step hstep).1
    refine ⟨⟨k, hcount, Bool.eq_false_iff.mpr (hnot hinv)⟩, hinv.progress, ?_⟩
    refine Inevitable.of_measure (I := L.Inv) wellFounded_lt L.left
      (fun s a t hs ha hstep => (hs.step hstep).imp_right fun hless => hless ha) (fun s hs hend => ?_) hinv
    by_cases hended : L.Ended s
    · refine absurd ⟨hended, ?_⟩ hend
      by_contra hhealthy
      exact hnot hs (hs.all_of_ended hended (Bool.eq_false_iff.mpr hhealthy) hcount)
    · obtain ⟨a, t, ha, hstep⟩ := hs.progress hended
      exact ⟨a, t, own_of_sure ha, hstep⟩
  · rw [header_eq hpacks hle, word_eq hpacks hle, headerBytes_itemHeader hle, itemPacks_bytes hpacks]
    exact ⟨rfl, rfl⟩
  · have hkeep : ∀ s a t, L.Inv s ∧ s.poison = false → sure a → L.step s a = some t →
        (L.Inv t ∧ t.poison = false) ∧ L.left t < L.left s := by
      intro s a t ⟨hs, hpoison⟩ ha hstep
      obtain ⟨ht, hless⟩ := hs.step hstep
      refine ⟨⟨ht, ?_⟩, hless (own_of_sure ha)⟩
      match a, ha with
      | .look b .message, _ =>
        simp only [Launch.step, look, hsame, hpoison] at hstep
        split at hstep
        · obtain ⟨-, hstep⟩ := Option.ite_none_right_eq_some.mp hstep
          obtain ⟨poison, hlook, rfl⟩ := Option.map_eq_some_iff.mp hstep
          simpa using (Option.ite_none_right_eq_some.mp hlook).2
        · cases hstep
      | .settle b, _ =>
        simp only [Launch.step, hpoison] at hstep
        split at hstep
        · obtain ⟨-, hstep⟩ := Option.ite_none_right_eq_some.mp hstep
          cases hstep
          rfl
        · cases hstep
    have hinv : L.Inv s ∧ s.poison = false :=
      hs.invariant (fun s => L.Inv s ∧ s.poison = false) ⟨inv_initial, rfl⟩
        fun s a t _ hs ha ht => (hkeep s a t hs ha ht).1
    refine ⟨hinv.2, Inevitable.of_measure (I := fun s => L.Inv s ∧ s.poison = false) wellFounded_lt L.left hkeep
      (fun s hs hend => hs.1.progress fun hended => hend ⟨hended, fun i hi => ?_⟩) hinv⟩
    exact hs.1.all_of_ended hended hs.2 hi

end SparkRing.ReceiveSizes
