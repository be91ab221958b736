import SparkRing.ArenaWires
import Mathlib.Tactic.Ring

/-!
# No rank is more than one op ahead

A kernel that saw a flag of its op knows that the peer's writes of that phase have
landed, as long as a flag line never shows the sequence of its op before the flag
of that op is written to it. Every op kind disseminates: a rank that finished an op
knows that every rank began it, so every rank finished the op before, and all
writes of that one have landed. This is what lets two slots suffice.
-/

namespace SparkRing.ArenaInvariant

open TransitionSystem SequenceWord ArenaSession ArenaPlan PhasedExchange ArenaKernel ArenaPosting ArenaWires
open Function (update_of_ne update_self)

variable {c : Config} {P : Program c} {σ τ : ℕ → Rank} {m n k j p q r lane line lane' first count : ℕ} {t : Rank} {d : Device} {a : Act}

/-- A kernel saw the flag of phase `k` of op `m` from a peer's lane, or finished the op. -/
def Saw (d : Device) (m k q lane : ℕ) : Prop :=
  m ≤ d.epoch ∨ m = d.current ∧
    match d.kernel with
    | .waiting j seen => k < j ∨ k = j ∧ (q, lane) ∈ seen
    | _ => False

/-- A kernel that rang the next phase saw every flag of a phase. -/
theorem saw_of_passed {m k q lane : ℕ} (h : Passed d m (k + 1)) : Saw d m k q lane := by
  rcases h with hle | ⟨heq, hlt⟩
  · exact .inl hle
  cases hkernel : d.kernel with
  | waiting =>
    simp only [rung, hkernel] at hlt
    simp only [Saw, hkernel]
    exact .inr ⟨heq, .inl (by omega)⟩
  | idle | staging | staged => simp [rung, hkernel] at hlt

/-- A kernel has to see the flag of phase `k` of op `m` from a peer's lane. -/
structure Awaits (P : Program c) (p m k q lane : ℕ) : Prop where
  /-- Ops are numbered from 1. -/
  pos : 1 ≤ m
  phase : k < phases c (P.op m)
  /-- The peer writes to the rank in that phase. -/
  peer : q ∈ peers c (P.op m) p k
  lane_lt : lane < c.laneCount

/-- The flag line of a phase of an op. -/
def lineOf (P : Program c) (m k q lane : ℕ) : ℕ := flagLine c (ns c (P.op m) k) q (m % slots) lane

/-- The flag of phase `k` of op `m` from a rank landed in another's memory. -/
def Landed (P : Program c) (σ : ℕ → Rank) (q p m k lane : ℕ) : Prop :=
  .flag m k (lineOf P m k q lane) ∈ (σ q).host.landed p lane

/-- Rank `q` writes the flag line of phase `k` of op `n` toward rank `p` in op `i`. -/
def Writes (P : Program c) (q p n k i : ℕ) : Prop :=
  1 ≤ i ∧ i % slots = n % slots ∧
    ∃ j < phases c (P.op i), p ∈ peers c (P.op i) q j ∧ ns c (P.op i) j = ns c (P.op n) k

/-- Before an op writes it, no flag line that a kernel waits for in that op shows the
op's word: the newest op that wrote the line, or the zero it began with, differs from
the op modulo 2^32. -/
def Fresh (P : Program c) : Prop :=
  ∀ n k p q, p < c.world → k < phases c (P.op n) → q ∈ peers c (P.op n) p k →
    ∀ j < n, sameWord j n → j = 0 ∨ Writes P q p n k j → ∃ i, j < i ∧ i < n ∧ Writes P q p n k i

/-- What holds of the group between any two steps. -/
structure Inv (P : Program c) (σ : ℕ → Rank) : Prop where
  /-- Every rank as a sender. -/
  sender : ∀ r < c.world, SenderInv P r (σ r).device (σ r).host
  /-- What a kernel saw has landed. -/
  saw : ∀ p < c.world, ∀ m k q lane, Awaits P p m k q lane → Saw (σ p).device m k q lane →
    Landed P σ q p m k lane
  /-- A flag line holds a flag that landed, or was never written. -/
  flags : ∀ p < c.world, ∀ line, (σ p).memory.flags line ≠ 0 → ∃ q < c.world, ∃ k lane,
    .flag ((σ p).memory.flags line) k line ∈ (σ q).host.landed p lane
  newest : ∀ p < c.world, ∀ q < c.world, ∀ m k lane line, .flag m k line ∈ (σ q).host.landed p lane →
    m ≤ (σ p).memory.flags line
  /-- Packs that landed stay until their op is finished. -/
  recv : ∀ p < c.world, ∀ q < c.world, ∀ m k first count lane,
    .data m k first count ∈ (σ q).host.landed p lane → (σ p).device.epoch < m →
    ∀ x, first ≤ x → x < first + count → (σ p).memory.recv q (m % slots) x = some (m, k)

theorem mem_wire_of_landed {h : Host} {w : Write} (hw : w ∈ h.landed p lane) : w ∈ wire h p lane :=
  List.mem_append_left _ hw

theorem mem_wire_of_queue {h : Host} {w : Write} (hw : w ∈ h.queue p lane) : w ∈ wire h p lane :=
  List.mem_append_right _ hw

/-- A flag line belongs to one namespace, source, slot and lane. -/
theorem flagLine_inj {a a' q q' slot slot' lane : ℕ} (hq : q < c.world) (hq' : q' < c.world)
    (hs : slot < slots) (hs' : slot' < slots) (hl : lane < c.laneCount) (hl' : lane' < c.laneCount)
    (h : flagLine c a q slot lane = flagLine c a' q' slot' lane') : a = a' ∧ q = q' ∧ slot = slot' ∧ lane = lane' := by
  have hform : ∀ b u s l, flagLine c b u s l = l + c.laneCount * (s + slots * (u + c.world * b)) := by
    intro b u s l
    simp only [flagLine]
    ring
  have hdiv : ∀ {x y z u v : ℕ}, y < x → z < x → y + x * u = z + x * v → y = z ∧ u = v := by
    intro x y z u v hy hz heq
    have hmod : (y + x * u) % x = (z + x * v) % x := by rw [heq]
    rw [Nat.add_mul_mod_self_left, Nat.add_mul_mod_self_left, Nat.mod_eq_of_lt hy, Nat.mod_eq_of_lt hz] at hmod
    subst hmod
    exact ⟨rfl, Nat.eq_of_mul_eq_mul_left (by omega) (Nat.add_left_cancel heq)⟩
  rw [hform, hform] at h
  obtain ⟨hlane, h⟩ := hdiv hl hl' h
  obtain ⟨hslot, h⟩ := hdiv hs hs' h
  obtain ⟨hsource, h⟩ := hdiv hq hq' h
  exact ⟨h, hsource, hslot, hlane⟩

theorem slot_lt (m : ℕ) : m % slots < slots := Nat.mod_lt _ (by decide)

theorem peers_lt (hr : r < c.world) (hk : k < phases c (P.op m)) (hp : p ∈ peers c (P.op m) r k) : p < c.world := by
  have h := (schedule (P.op m) (P.admitted m)).peers_lt r hr k (by simpa using hk) p
  simp only [schedule_peers] at h
  exact h hp

theorem peers_symm (hr : r < c.world) (hk : k < phases c (P.op m)) (hp : p ∈ peers c (P.op m) r k) : r ∈ peers c (P.op m) p k := by
  have h := (schedule (P.op m) (P.admitted m)).peers_symm r hr k (by simpa using hk) p
  simp only [schedule_peers] at h
  exact h hp

theorem exists_peer (hr : r < c.world) (hk : k < phases c (P.op m)) : ∃ p, p ∈ peers c (P.op m) r k := by
  have h := (schedule (P.op m) (P.admitted m)).peers_ne r hr k (by simpa using hk)
  rw [schedule_peers] at h
  exact List.exists_mem_of_ne_nil _ h

namespace Inv

variable (h : Inv P σ)

include h

/-- A kernel past a wait knows that its peers rang the phase waited for. -/
theorem rang_of_passed (hp : p < c.world) (hm : 1 ≤ m) (hk : k < phases c (P.op m))
    (hpass : Passed (σ p).device m (k + 1)) (hq : q ∈ peers c (P.op m) p k) : Rang P (σ q).device m k := by
  have hqw := peers_lt hp hk hq
  have hland := h.saw p hp m k q 0 ⟨hm, hk, hq, c.laneCount_pos⟩ (saw_of_passed hpass)
  exact ((h.sender q hqw).wires p 0).rang _ (mem_wire_of_landed hland)

/-- What passing waits of one op tells about the other ranks. -/
theorem passed_of_heard {base i : ℕ} (hr : r < c.world) (hm : 1 ≤ m) (hi : base + i ≤ phases c (P.op m))
    (hpass : Passed (σ r).device m (base + i)) (hq : q ∈ heard (peers c (P.op m)) base i r) : q < c.world ∧ Passed (σ q).device m base := by
  refine PhasedExchange.passed_of_heard (fun r i => r < c.world ∧ Passed (σ r).device m i) ?_ hi ⟨hr, hpass⟩ hq
  rintro r i hi ⟨hr, hpass⟩
  refine ⟨⟨hr, ?_⟩, fun u hu => ⟨peers_lt hr hi hu, (h.rang_of_passed hr hm hi hpass hu).passed⟩⟩
  rcases hpass with hle | ⟨heq, hlt⟩
  · exact .inl hle
  · exact .inr ⟨heq, by omega⟩

/-- A rank that finished an op knows that every rank began it. -/
theorem began (hp : p < c.world) (hq : q < c.world) (hm : 1 ≤ m) (hle : m ≤ (σ p).device.epoch) : Rang P (σ q).device m 0 := by
  have hfull := (schedule (P.op m) (P.admitted m)).full p hp q hq
  rw [schedule_peers, schedule_phases] at hfull
  exact ⟨hm, phases_pos P m, (h.passed_of_heard hp hm (by omega) (.inl hle) hfull).2⟩

/-- No rank is more than one op ahead of another. -/
theorem epoch_near (hp : p < c.world) (hq : q < c.world) : (σ p).device.epoch ≤ (σ q).device.epoch + 1 := by
  rcases Nat.eq_zero_or_pos (σ p).device.epoch with hz | hpos
  · omega
  · exact (h.began hp hq hpos le_rfl).le

/-- Once a rank finished an op, every write of the op before has landed. -/
theorem landed_of_epoch (hp : p < c.world) (hr : r < c.world) (hm : 1 ≤ m)
    (hlt : m < (σ p).device.epoch) (hk : k < phases c (P.op m)) (hq : q ∈ peers c (P.op m) r k)
    (hl : lane < c.laneCount) : Landed P σ r q m k lane := by
  have hqw := peers_lt hr hk hq
  have hnear := h.epoch_near hp hqw
  exact h.saw q hqw m k r lane ⟨hm, hk, peers_symm hr hk hq, hl⟩ (.inl (by omega))

/-- An op whose successor was finished has been posted. -/
theorem flushed (hr : r < c.world) : Flushed P (σ r).device (σ r).host := by
  intro m hm hlt k hk
  obtain ⟨q, hq⟩ := exists_peer (P := P) (m := m) hr hk
  have hland := h.landed_of_epoch hr hr hm hlt hk hq c.laneCount_pos
  exact ((h.sender r hr).wires q 0).taken _ (mem_wire_of_landed hland)

/-- What holds of a write that has not landed. -/
theorem queued (hr : r < c.world) {w : Write} (hw : w ∈ (σ r).host.queue p lane) :
    p < c.world ∧ Awaits P p w.op w.phase r lane ∧ ¬Landed P σ r p w.op w.phase lane := by
  have hwire := (h.sender r hr).wires p lane
  have hmem := mem_wire_of_queue hw
  have hrang := hwire.rang w hmem
  have hpeer := hwire.peer w hmem
  refine ⟨peers_lt hr hrang.phase hpeer, ⟨hrang.pos, hrang.phase, peers_symm hr hrang.phase hpeer,
    hwire.lane_lt w hmem⟩, ?_⟩
  intro hland
  have hclosed := List.pairwise_append.mp hwire.closed
  exact hclosed.2.2 _ hland w hw ⟨rfl, rfl⟩

/-- The receiver of a write that has not landed has not finished its op. -/
theorem queued_receiver (hr : r < c.world) {w : Write} (hw : w ∈ (σ r).host.queue p lane) : (σ p).device.epoch < w.op := by
  obtain ⟨hp, hawaits, hnot⟩ := h.queued hr hw
  by_contra hge
  exact hnot (h.saw p hp _ _ _ _ hawaits (.inl (by omega)))

/-- The sender of a write that has not landed has not finished the op after it. -/
theorem queued_sender (hr : r < c.world) {w : Write} (hw : w ∈ (σ r).host.queue p lane) : (σ r).device.epoch ≤ w.op := by
  have hlt := h.queued_receiver hr hw
  have hnear := h.epoch_near hr (h.queued hr hw).1
  omega

theorem landed_flag (hq : q < c.world) (hw : .flag m k line ∈ (σ q).host.landed p lane) :
    line = lineOf P m k q lane ∧ Rang P (σ q).device m k ∧ p ∈ peers c (P.op m) q k ∧ lane < c.laneCount := by
  have hwire := (h.sender q hq).wires p lane
  have hmem := mem_wire_of_landed hw
  exact ⟨hwire.fits _ hmem, hwire.rang _ hmem, hwire.peer _ hmem, hwire.lane_lt _ hmem⟩

/-- A flag that shows the sequence of the op awaited is that op's. -/
theorem landed_of_word (hf : Fresh P) (hp : p < c.world) (ha : Awaits P p (σ p).device.current k q lane)
    (hword : sameWord ((σ p).memory.flags (lineOf P (σ p).device.current k q lane)) (σ p).device.current) :
    Landed P σ q p (σ p).device.current k lane := by
  obtain ⟨n, hn⟩ : ∃ n, n = (σ p).device.current := ⟨_, rfl⟩
  rw [← hn] at ha hword ⊢
  have hcurrent : n = (σ p).device.epoch + 1 := hn
  have hq := peers_lt hp ha.phase ha.peer
  obtain ⟨line, hline⟩ : ∃ line, line = lineOf P n k q lane := ⟨_, rfl⟩
  rw [← hline] at hword
  obtain ⟨word, hw⟩ : ∃ word, word = (σ p).memory.flags line := ⟨_, rfl⟩
  rw [← hw] at hword
  -- what the line holds was written by the awaited peer in an op of the same slot and namespace
  have hwriter : word ≠ 0 → ∃ i, .flag word i line ∈ (σ q).host.landed p lane ∧
      ns c (P.op word) i = ns c (P.op n) k ∧ word % slots = n % slots := by
    intro hne
    obtain ⟨u, hu, i, l, hland⟩ := h.flags p hp line (hw ▸ hne)
    rw [← hw] at hland
    obtain ⟨hfit, -, -, hl⟩ := h.landed_flag hu hland
    rw [hline] at hfit
    obtain ⟨hns, hqu, hslot, hlane⟩ := flagLine_inj hq hu (slot_lt _) (slot_lt _) ha.lane_lt hl hfit
    subst hqu hlane
    exact ⟨i, hland, hns.symm, hslot.symm⟩
  have hle : word ≤ n := by
    by_contra hgt
    obtain ⟨i, hland, -, hslot⟩ := hwriter (by omega)
    obtain ⟨-, hrang, -, -⟩ := h.landed_flag hq hland
    have hnear := h.epoch_near hq hp
    have hrang := hrang.le
    simp only [slots] at hslot
    omega
  have heq : word = n := by
    by_contra hne
    obtain ⟨i, hlt, hi, hpos, hslot, j, hj, hpeer, hns⟩ := hf n k p q hp ha.phase ha.peer word (by omega) hword (by
      rcases Nat.eq_zero_or_pos word with hz | hpos
      · exact .inl hz
      obtain ⟨i, hland, hns, hslot⟩ := hwriter (by omega)
      obtain ⟨-, hrang, hpeer, -⟩ := h.landed_flag hq hland
      exact .inr ⟨hpos, hslot, i, hrang.phase, hpeer, hns⟩)
    have hsaw : Saw (σ p).device i j q lane := by
      refine .inl ?_
      omega
    have hland := h.saw p hp i j q lane ⟨hpos, hj, peers_symm hq hj hpeer, ha.lane_lt⟩ hsaw
    have hsame : lineOf P i j q lane = line := by rw [hline, lineOf, lineOf, hns, hslot]
    have hnew := h.newest p hp q hq i j lane _ hland
    rw [hsame, ← hw] at hnew
    omega
  obtain ⟨i, hland, hns, -⟩ := hwriter (by have := ha.pos; omega)
  obtain ⟨-, hrang, hpeer, -⟩ := h.landed_flag hq hland
  rw [heq] at hland hns hrang hpeer
  have hphase : i = k := by
    have hinj := (schedule (P.op n) (P.admitted n)).ns_inj q hq i (by simpa using hrang.phase) k
      (by simpa using ha.phase) p
    simp only [schedule_peers, schedule_ns] at hinj
    exact hinj hpeer (peers_symm hp ha.phase ha.peer) hns
  rw [hphase, hline] at hland
  exact hland

end Inv

theorem Inv.initial : Inv P initial := by
  refine ⟨fun r _ => SenderInv.initial, ?_, ?_, ?_, ?_⟩
  · rintro p - m k q lane ha (hle | ⟨-, hfalse⟩)
    · have hle' : m ≤ 0 := hle
      have hpos := ha.pos
      omega
    · exact hfalse.elim
  · intro p _ line hne
    exact absurd rfl hne
  · intro p _ q _ m k lane line hw
    exact absurd hw (List.not_mem_nil)
  · intro p _ q _ m k first count lane hw
    exact absurd hw (List.not_mem_nil)

/-- What a kernel saw after a step it saw before, or it sees it now. -/
theorem saw_kernelAct {s : Rank} (hs : s.kernelAct P p a = some d) (ha : Awaits P p m k q lane) (hsaw : Saw d m k q lane) :
    Saw s.device m k q lane ∨ m = s.device.current ∧ sameWord (s.memory.flags (lineOf P m k q lane)) s.device.current = true := by
  cases a with
  | launch =>
    simp only [Rank.kernelAct, Device.launch] at hs
    split at hs
    case h_2 => cases hs
    case h_1 =>
      cases hs
      rcases hsaw with hle | ⟨-, hfalse⟩
      · exact .inl (.inl hle)
      · exact hfalse.elim
  | writeOpWord =>
    simp only [Rank.kernelAct, Device.writeOpWord] at hs
    split at hs
    case h_2 => cases hs
    case h_1 =>
      cases hs
      rcases hsaw with hle | ⟨-, hfalse⟩
      · exact .inl (.inl hle)
      · exact hfalse.elim
  | ring =>
    simp only [Rank.kernelAct, Device.ring] at hs
    split at hs
    case h_2 => cases hs
    case h_1 =>
      cases hs
      rcases hsaw with hle | ⟨-, hlt | ⟨-, hmem⟩⟩
      · exact .inl (.inl hle)
      · exact absurd hlt (Nat.not_lt_zero _)
      · exact absurd hmem (List.not_mem_nil)
  | see u l =>
    simp only [Rank.kernelAct, Device.see] at hs
    split at hs
    case h_2 => cases hs
    case h_1 i seen hkernel =>
      obtain ⟨hg, rfl⟩ := Option.ite_some_none_eq_some.mp hs
      rcases hsaw with hle | ⟨heq, hlt | ⟨hki, hmem⟩⟩
      · exact .inl (.inl hle)
      · exact .inl (.inr ⟨heq, by rw [hkernel]; exact .inl hlt⟩)
      rcases List.mem_cons.mp hmem with hnew | hold
      · cases hnew
        subst hki
        refine .inr ⟨heq, ?_⟩
        have hword := hg.2.2
        have heq' : m = s.device.current := heq
        rw [heq']
        exact hword
      · exact .inl (.inr ⟨heq, by rw [hkernel]; exact .inr ⟨hki, hold⟩⟩)
  | advance =>
    simp only [Rank.kernelAct, Device.advance] at hs
    split at hs
    case h_2 => cases hs
    case h_1 i seen hkernel =>
      obtain ⟨harrived, hs⟩ := Option.ite_none_right_eq_some.mp hs
      have hseen : m = s.device.current → k ≤ i → Saw s.device m k q lane := by
        intro heq hle
        refine .inr ⟨heq, ?_⟩
        rw [hkernel]
        rcases Nat.lt_or_ge k i with hlt | hge
        · exact .inl hlt
        have hki : k = i := by omega
        refine .inr ⟨hki, ?_⟩
        simp only [arrived, List.all_eq_true, List.mem_range, decide_eq_true_eq] at harrived
        exact harrived q (heq ▸ hki ▸ ha.peer) lane ha.lane_lt
      split at hs
      case isTrue =>
        cases hs
        rcases hsaw with hle | ⟨heq, hlt | ⟨-, hmem⟩⟩
        · exact .inl (.inl hle)
        · exact .inl (hseen heq (by omega))
        · exact absurd hmem (List.not_mem_nil)
      case isFalse hlast =>
        cases hs
        rcases hsaw with hle | ⟨-, hfalse⟩
        · rcases Nat.lt_or_ge s.device.epoch m with hlt | hge
          · have heq : m = s.device.current := by
              have hle' : m ≤ s.device.epoch + 1 := hle
              have hcurrent : s.device.current = s.device.epoch + 1 := rfl
              omega
            have hphase := ha.phase
            rw [heq] at hphase
            exact .inl (hseen heq (by omega))
          · exact .inl (.inl hge)
        · exact hfalse.elim
  | poll | postData | postFlag => cases hs

/-- A step that changes one rank and lets nothing land keeps the invariant when the
rank stays a proper sender and what its kernel saw has landed. -/
theorem Inv.update (h : Inv P σ) (hr : r < c.world) (hsender : SenderInv P r t.device t.host)
    (hlanded : t.host.landed = (σ r).host.landed) (hmemory : t.memory = (σ r).memory) (hepoch : (σ r).device.epoch ≤ t.device.epoch)
    (hsaw : ∀ m k q lane, Awaits P r m k q lane → Saw t.device m k q lane → Landed P σ q r m k lane) : Inv P (Function.update σ r t) := by
  have hland : ∀ q, (Function.update σ r t q).host.landed = (σ q).host.landed := by
    intro q
    rcases Nat.decEq q r with hne | rfl
    · rw [update_of_ne hne]
    · rw [update_self, hlanded]
  have hmem : ∀ q, (Function.update σ r t q).memory = (σ q).memory := by
    intro q
    rcases Nat.decEq q r with hne | rfl
    · rw [update_of_ne hne]
    · rw [update_self, hmemory]
  refine ⟨?_, ?_, ?_, ?_, ?_⟩
  · intro q hq
    rcases Nat.decEq q r with hne | rfl
    · rw [update_of_ne hne]
      exact h.sender q hq
    · rw [update_self]
      exact hsender
  · intro p hp m k q lane ha hs
    rw [Landed, hland]
    rcases Nat.decEq p r with hne | rfl
    · rw [update_of_ne hne] at hs
      exact h.saw p hp m k q lane ha hs
    · rw [update_self] at hs
      exact hsaw m k q lane ha hs
  · intro p hp line hne
    rw [hmem] at hne
    obtain ⟨q, hq, k, lane, hw⟩ := h.flags p hp line hne
    exact ⟨q, hq, k, lane, by rwa [hmem, hland]⟩
  · intro p hp q hq m k lane line hw
    rw [hland] at hw
    rw [hmem]
    exact h.newest p hp q hq m k lane line hw
  intro p hp q hq m k first count lane hw hlt
  rw [hland] at hw
  rw [hmem]
  refine h.recv p hp q hq m k first count lane hw ?_
  rcases Nat.decEq p r with hne | rfl
  · rwa [update_of_ne hne] at hlt
  · rw [update_self] at hlt
    omega

/-- A step of a rank keeps the invariant. -/
theorem Inv.act (h : Inv P σ) (hf : Fresh P) (hr : r < c.world) (ha : (σ r).act P r a = some t) : Inv P (Function.update σ r t) := by
  rcases Rank.act_cases ha with ⟨d, hd, rfl⟩ | ⟨g, hg, rfl⟩
  · obtain ⟨hsender, hgrown⟩ := (h.sender r hr).kernelAct hd
    refine h.update hr hsender rfl rfl hgrown.epoch ?_
    intro m k q lane hawaits hsaw
    rcases saw_kernelAct hd hawaits hsaw with hold | ⟨heq, hword⟩
    · exact h.saw r hr m k q lane hawaits hold
    · subst heq
      exact h.landed_of_word hf hr hawaits hword
  · obtain ⟨hsender, hlanded⟩ := (h.sender r hr).threadAct hr (h.flushed hr) hg
    exact h.update hr hsender hlanded rfl le_rfl (h.saw r hr)

/-- Two writes of one source that reach the same pack of a slot before the receiver
finished the op of either are of one phase. -/
theorem Inv.one_phase (h : Inv P σ) (hr : r < c.world) (hp : p < c.world) {first' count' x : ℕ}
    (hold : .data m k first count ∈ (σ r).host.landed p lane) (hlt : (σ p).device.epoch < m)
    (hnew : .data n j first' count' ∈ (σ r).host.queue p lane') (hslot : m % slots = n % slots)
    (hx : first ≤ x ∧ x < first + count) (hx' : first' ≤ x ∧ x < first' + count') : m = n ∧ k = j := by
  have hwire := (h.sender r hr).wires p lane
  have hwire' := (h.sender r hr).wires p lane'
  have hmem := mem_wire_of_landed hold
  have hmem' := mem_wire_of_queue hnew
  have hreceiver : (σ p).device.epoch < n := h.queued_receiver hr hnew
  have hm : m ≤ (σ r).device.epoch + 1 := (hwire.rang _ hmem).le
  have hn : n ≤ (σ r).device.epoch + 1 := (hwire'.rang _ hmem').le
  have hnear := h.epoch_near hr hp
  have heq : m = n := by
    simp only [slots] at hslot
    omega
  subst heq
  refine ⟨rfl, ?_⟩
  by_contra hne
  -- different phases of one op write different packs
  have hphase : k < phases c (P.op m) := (hwire.rang _ hmem).phase
  have hphase' : j < phases c (P.op m) := (hwire'.rang _ hmem').phase
  have hdisjoint := (schedule (P.op m) (P.admitted m)).disjoint r hr k (by simpa using hphase) j
    (by simpa using hphase') p
  simp only [schedule_peers, schedule_range] at hdisjoint
  have hsplit := hdisjoint (hwire.peer _ hmem) (hwire'.peer _ hmem') hne
  have hin : InStripe c (P.op m) r k p lane x := hwire.fits _ hmem x hx.1 hx.2
  have hin' : InStripe c (P.op m) r j p lane' x := hwire'.fits _ hmem' x hx'.1 hx'.2
  have hlo := hin.range (hwire.lane_lt _ hmem)
  have hhi := hin'.range (hwire'.lane_lt _ hmem')
  omega

variable {w : Write} {vs : List Write}

/-- A flag that lands is the newest of its line. -/
theorem Inv.flag_newest (h : Inv P σ) (hr : r < c.world) (hq : q < c.world) {l : ℕ}
    (hold : .flag m k line ∈ (σ q).host.landed p l) (hnew : .flag n j line ∈ (σ r).host.queue p lane) : m ≤ n := by
  have hwire := (h.sender r hr).wires p lane
  have hmem := mem_wire_of_queue hnew
  have hfit' : line = lineOf P n j r lane := hwire.fits _ hmem
  obtain ⟨hfit, hrang, -, hl⟩ := h.landed_flag hq hold
  rw [hfit'] at hfit
  obtain ⟨-, hqr, hslot, -⟩ := flagLine_inj hr hq (slot_lt _) (slot_lt _) (hwire.lane_lt _ hmem) hl hfit
  subst hqr
  have hsender : (σ r).device.epoch ≤ n := h.queued_sender hr hnew
  have hrang := hrang.le
  simp only [slots] at hslot
  omega

/-- Flag lines hold landed flags once a write landed. -/
theorem Inv.land_flags (h : Inv P σ) (hr : r < c.world) (hne : r ≠ p) {v : ℕ} (hv : v < c.world)
    (hnz : (land σ r p lane w vs v).memory.flags line ≠ 0) : ∃ q < c.world, ∃ k l,
      .flag ((land σ r p lane w vs v).memory.flags line) k line ∈ (land σ r p lane w vs q).host.landed v l := by
  have hold : ∀ x, (σ v).memory.flags line = x → x ≠ 0 → ∃ q < c.world, ∃ k l,
      .flag x k line ∈ (ArenaSession.land σ r p lane w vs q).host.landed v l := by
    rintro x rfl hx
    obtain ⟨q, hq, k, l, hmem⟩ := h.flags v hv line hx
    exact ⟨q, hq, k, l, (mem_landed_land hne q v l _).mpr (.inl hmem)⟩
  rcases Nat.decEq v p with hvp | rfl
  · rw [land_memory_of_ne hvp] at hnz ⊢
    exact hold _ rfl hnz
  rw [land_memory] at hnz ⊢
  cases w with
  | data => exact hold _ rfl hnz
  | flag n j line' =>
    simp only [Memory.receive] at hnz ⊢
    rcases Nat.decEq line line' with hl | rfl
    · rw [update_of_ne hl] at hnz ⊢
      exact hold _ rfl hnz
    · rw [update_self]
      exact ⟨r, hr, j, lane, (mem_landed_land hne r v lane _).mpr (.inr ⟨rfl, rfl, rfl, rfl⟩)⟩

/-- Flag lines hold the newest landed flag once a write landed. -/
theorem Inv.land_newest (h : Inv P σ) (hr : r < c.world) (hne : r ≠ p)
    (hw : w ∈ (σ r).host.queue p lane) {v l : ℕ} (hv : v < c.world) (hq : q < c.world)
    (hmem : .flag m k line ∈ (land σ r p lane w vs q).host.landed v l) : m ≤ (land σ r p lane w vs v).memory.flags line := by
  rcases (mem_landed_land hne q v l _).mp hmem with hold | ⟨rfl, rfl, rfl, hx⟩
  · have hle := h.newest v hv q hq m k l line hold
    rcases Nat.decEq v p with hvp | rfl
    · rwa [land_memory_of_ne hvp]
    rw [land_memory]
    cases w with
    | data => exact hle
    | flag n j line' =>
      simp only [Memory.receive]
      rcases Nat.decEq line line' with hl | rfl
      · rwa [update_of_ne hl]
      · rw [update_self]
        exact h.flag_newest hr hq hold hw
  · rw [land_memory, ← hx]
    simp only [Memory.receive, update_self, le_refl]

/-- Packs stay until their op is finished when a write lands. -/
theorem Inv.land_recv (h : Inv P σ) (hne : r ≠ p) (hw : w ∈ (σ r).host.queue p lane) {v l x : ℕ} (hv : v < c.world) (hq : q < c.world)
    (hmem : .data m k first count ∈ (land σ r p lane w vs q).host.landed v l)
    (hlt : (σ v).device.epoch < m) (hlo : first ≤ x) (hhi : x < first + count) :
    (land σ r p lane w vs v).memory.recv q (m % slots) x = some (m, k) := by
  rcases (mem_landed_land hne q v l _).mp hmem with hold | ⟨rfl, rfl, rfl, hx⟩
  · have hkeep := h.recv v hv q hq m k first count l hold hlt x hlo hhi
    rcases Nat.decEq v p with hvp | rfl
    · rwa [land_memory_of_ne hvp]
    rw [land_memory]
    cases w with
    | flag => exact hkeep
    | data n j first' count' =>
      simp only [Memory.receive]
      rcases Nat.decEq q r with hqr | rfl
      · rwa [update_of_ne hqr]
      rw [update_self]
      rcases Nat.decEq (m % slots) (n % slots) with hslot | hslot
      · rwa [update_of_ne hslot]
      rw [hslot, update_self]
      split
      case isTrue hx =>
        obtain ⟨rfl, rfl⟩ := h.one_phase hq hv hold hlt hw hslot ⟨hlo, hhi⟩ hx
        rfl
      case isFalse => rwa [← hslot]
  · rw [land_memory, ← hx]
    simp only [Memory.receive, update_self]
    rw [if_pos ⟨hlo, hhi⟩]

/-- The oldest write of a queue pair lands. -/
theorem Inv.land (h : Inv P σ) (hr : r < c.world) (hne : r ≠ p)
    (hq : (σ r).host.queue p lane = w :: vs) : Inv P (land σ r p lane w vs) := by
  have hw : w ∈ (σ r).host.queue p lane := by rw [hq]; exact List.mem_cons_self
  refine ⟨?_, ?_, fun v hv line => h.land_flags hr hne hv,
    fun v hv q hq' m k l line => h.land_newest hr hne hw hv hq', ?_⟩
  · intro u hu
    rw [land_device]
    rcases Nat.decEq u r with hur | rfl
    · rw [land_host_of_ne hur]
      exact h.sender u hu
    · rw [land_host hne]
      exact (h.sender u hu).deliver hq
  · intro v hv m k q l ha hs
    rw [land_device] at hs
    exact (mem_landed_land hne q v l _).mpr (.inl (h.saw v hv m k q l ha hs))
  intro v hv q hq' m k first count l hmem hlt x hlo hhi
  rw [land_device] at hlt
  exact h.land_recv hne hw hv hq' hmem hlt hlo hhi

/-- Every reachable state of a program whose flag lines stay fresh satisfies the
invariant. -/
theorem reachable_inv {good : (ℕ → Rank) → Action → Prop} (hf : Fresh P) (hs : Reachable (step P) good initial σ) : Inv P σ := by
  refine hs.invariant (Inv P) Inv.initial ?_
  intro σ a τ _ h _ ha
  rcases step_cases ha with ⟨r, e, t, -, hr, ht, rfl⟩ | ⟨r, p, lane, w, ws, -, hr, -, hne, hq, rfl⟩
  · exact h.act hf hr ht
  · exact h.land hr hne hq

end SparkRing.ArenaInvariant
