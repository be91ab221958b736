import SparkRing.ArenaInvariant

/-!
# Two slots suffice while flag lines stay fresh

No write lands in a slot whose op before last is not finished, no kernel restages a
slot that still has writes of its op before last in flight, and what a kernel saw
announced stays in its receive slot until it finishes. All of this rests on a wait
not taking a flag for another that is 2^32 ops older: a line that was not written
for so long shows the awaited sequence too early.
-/

namespace SparkRing.ArenaSlots

open TransitionSystem SequenceWord SwingPlan ArenaSession ArenaPlan ArenaPosting ArenaWires Function ArenaInvariant ArenaKernel
open Channel (laneSplit_cover laneSplit_mono)

variable {c : Config} {P : Program c} {σ : ℕ → Rank} {s t : Rank}

/-- What two slots promise. -/
structure SlotSafe (P : Program c) (σ : ℕ → Rank) : Prop where
  /-- A write of op `s + 2` lands at a rank that finished op `s`. -/
  landing : ∀ r < c.world, ∀ p < c.world, ∀ lane, ∀ w ∈ (σ r).host.landed p lane, ∀ s, w.op = s + 2 →
    s ≤ (σ p).device.epoch
  /-- While a rank's kernel runs op `s + 2`, every write of its op `s` is posted and
  has landed. -/
  staging : ∀ r < c.world, ∀ s, (σ r).device.kernel ≠ .idle → (σ r).device.current = s + 2 → 1 ≤ s →
    (∀ p lane, ∀ w ∈ (σ r).host.queue p lane, w.op ≠ s) ∧
    ∀ k < phases c (P.op s), ∀ p ∈ peers c (P.op s) r k, ∀ lane < c.laneCount, Landed P σ r p s k lane ∧
      ∀ x, InStripe c (P.op s) r k p lane x → Covered ((σ r).host.landed p lane) s k x
  /-- Once a wait of a running op saw a lane's flag, every pack of that lane's stripe of
  that phase is in the receive slot. -/
  seen : ∀ p < c.world, ∀ j flags, (σ p).device.kernel = .waiting j flags → ∀ k q lane,
    Awaits P p (σ p).device.current k q lane → k < j ∨ k = j ∧ (q, lane) ∈ flags →
    ∀ x, InStripe c (P.op (σ p).device.current) q k p lane x →
      (σ p).memory.recv q ((σ p).device.current % slots) x = some ((σ p).device.current, k)

/-- With its flag, every pack of a stripe has landed. -/
theorem covered_landed {q p m k lane x : ℕ} (h : Inv P σ) (hq : q < c.world) (hland : Landed P σ q p m k lane)
    (hx : InStripe c (P.op m) q k p lane x) : Covered ((σ q).host.landed p lane) m k x := by
  have hwire := (h.sender q hq).wires p lane
  obtain ⟨first, count, hmem, hlo, hhi⟩ := hwire.covered m k _ (mem_wire_of_landed hland) x hx
  refine ⟨first, count, ?_, hlo, hhi⟩
  rcases List.mem_append.mp hmem with hlanded | hqueue
  · exact hlanded
  · exact absurd hland (h.queued hq hqueue).2.2

/-- In every run of a program whose flag lines stay fresh, two slots suffice. -/
theorem slots_suffice (hf : Fresh P) (hs : Reachable (step P) Unrestricted initial σ) : SlotSafe P σ := by
  have h := reachable_inv hf hs
  refine ⟨?_, ?_, ?_⟩
  · intro r hr p hp lane w hw s hop
    have hrang := ((h.sender r hr).wires p lane).rang w (mem_wire_of_landed hw)
    have hle := hrang.le
    have hnear := h.epoch_near hr hp
    omega
  · intro r hr s _ hcurrent hs
    have hepoch : s < (σ r).device.epoch := by
      have hcurrent' : (σ r).device.epoch + 1 = s + 2 := hcurrent
      omega
    constructor
    · intro p lane w hw heq
      have hle := h.queued_sender hr hw
      omega
    intro k hk p hp lane hl
    have hland := h.landed_of_epoch hr hr hs hepoch hk hp hl
    exact ⟨hland, fun x hx => covered_landed h hr hland hx⟩
  · intro p hp j flags hkernel k q lane ha hseen x hx
    have hsaw : Saw (σ p).device (σ p).device.current k q lane := .inr ⟨rfl, by rw [hkernel]; exact hseen⟩
    have hq := peers_lt hp ha.phase ha.peer
    have hland := h.saw p hp _ k q lane ha hsaw
    obtain ⟨first, count, hmem, hlo, hhi⟩ := covered_landed h hq hland hx
    exact h.recv p hp q hq _ k first count lane hmem (Nat.lt_succ_self _) x hlo hhi

/-- Two ranks, one lane, slots of two packs. -/
def pairConfig : Config := ⟨2, 1, 32, two_le_two, two_le_sixteen, Nat.one_pos⟩

/-- Two ranks run scatter ops forever: their flag lines stay fresh. -/
def scatters : Program pairConfig where
  op _ := ⟨.scatter, 32⟩
  admitted _ := ⟨by decide, by decide, by decide⟩

theorem fresh_scatters : Fresh scatters := by
  intro n k p q hp hk hq j hj hword _
  have hk0 : k = 0 := Nat.lt_one_iff.mp hk
  have hqp := (mem_peersOf.mp hq)
  rw [sameWord_iff] at hword
  refine ⟨n - 2, by omega, by omega, by omega, by simp only [slots]; omega, 0, Nat.one_pos, ?_, by rw [hk0]; rfl⟩
  exact mem_peersOf.mpr ⟨hp, hqp.2.symm⟩

/-- The stripe of a rank's first phase. -/
def firstStripe (r : ℕ) : Stripe := ⟨1 - r, 0, 1 - r, 1, 0⟩

/-- A rank's own steps of the first phase of an op. -/
def firstPhase (r : ℕ) : List Act :=
  [.launch, .writeOpWord, .ring] ++ List.replicate 7 .poll ++ List.replicate 2 .poll ++
    [.postData (firstStripe r) 1, .postFlag (rest (firstStripe r) 1), .poll] ++ List.replicate 7 .poll ++ [.poll]

/-- The first op of both ranks up to the wait of rank 0. -/
def firstOp : List Action :=
  (firstPhase 0).map (.act 0) ++ (firstPhase 1).map (.act 1) ++ [.land 1 0 0, .land 1 0 0, .act 0 (.see 1 0)]

/-- Two slots suffice for the first op of two ranks, up to a wait that saw a flag. -/
theorem slots_suffice_firstOp : ∃ σ, Reachable (step scatters) Unrestricted initial σ ∧
    (σ 0).device.kernel = .waiting 0 [(1, 0)] ∧ SlotSafe scatters σ := by
  obtain ⟨σ, hs, hp⟩ := Reachable.exists_of_runs (step scatters) initial firstOp
    (fun σ => decide ((σ 0).device.kernel = .waiting 0 [(1, 0)])) (by decide +kernel)
  exact ⟨σ, hs, of_decide_eq_true hp, slots_suffice fresh_scatters hs⟩

/-- Every pack of a phase is in one lane's stripe. -/
theorem existsUnique_inStripe {op : Op} {r k p x : ℕ} (hlo : (range c op r k p).1 ≤ x) (hhi : x < (range c op r k p).1 + (range c op r k p).2) :
    ∃! lane, lane < c.laneCount ∧ InStripe c op r k p lane x := by
  obtain ⟨lane, hlane, hfirst, hlast⟩ := laneSplit_cover c.laneCount_pos (show x - (range c op r k p).1 < (range c op r k p).2 by omega)
  refine ⟨lane, ⟨hlane, ?_⟩, ?_⟩
  · simp only [InStripe, planned, stripe]
    omega
  · rintro other ⟨-, hother⟩
    simp only [InStripe, planned, stripe] at hother
    rcases Nat.lt_trichotomy other lane with hlt | heq | hgt
    · have hends := @laneSplit_mono (range c op r k p).2 c.laneCount _ _ hlt
      omega
    · exact heq
    · have hends := @laneSplit_mono (range c op r k p).2 c.laneCount _ _ hgt
      omega

/-- Ops keep the group in step: no rank is two ops ahead of another, and when a rank finished an op every flag that its peers
owed it in any phase of that op has landed, and every pack of their messages through one lane. -/
theorem finished_ops_delivered (hf : Fresh P) (hs : Reachable (step P) Unrestricted initial σ) {p : ℕ} (hp : p < c.world) :
    (∀ r < c.world, (σ p).device.epoch ≤ (σ r).device.epoch + 1) ∧
      ∀ m k q, 1 ≤ m → m ≤ (σ p).device.epoch → k < phases c (P.op m) → q ∈ peers c (P.op m) p k →
        (∀ lane < c.laneCount, Landed P σ q p m k lane) ∧
        ∀ x, (range c (P.op m) q k p).1 ≤ x → x < (range c (P.op m) q k p).1 + (range c (P.op m) q k p).2 →
          ∃! lane, lane < c.laneCount ∧ Covered ((σ q).host.landed p lane) m k x := by
  have h := reachable_inv hf hs
  refine ⟨fun r hr => h.epoch_near hp hr, fun m k q hpos hm hk hq => ?_⟩
  have hland : ∀ lane < c.laneCount, Landed P σ q p m k lane := fun lane hl => h.saw p hp m k q lane ⟨hpos, hk, hq, hl⟩ (.inl hm)
  refine ⟨hland, fun x hlo hhi => ?_⟩
  have hqw := peers_lt hp hk hq
  obtain ⟨lane, ⟨hl, hx⟩, honly⟩ := existsUnique_inStripe hlo hhi
  refine ⟨lane, ⟨hl, covered_landed h hqw (hland lane hl) hx⟩, ?_⟩
  rintro other ⟨hother, first, count, hmem, hcover⟩
  exact honly other ⟨hother, ((h.sender q hqw).wires p other).fits _ (mem_wire_of_landed hmem) x hcover.1 hcover.2⟩

theorem finished_ops_delivered_scatters : ∃ σ, Reachable (step scatters) Unrestricted initial σ ∧ (σ 0).device.epoch = 1 ∧
    Landed scatters σ 1 0 1 0 0 := by
  obtain ⟨σ, hs, hp⟩ := Reachable.exists_of_runs (step scatters) initial (firstOp ++ [.act 0 .advance])
    (fun σ => decide ((σ 0).device.epoch = 1)) (by decide +kernel)
  have hdone := of_decide_eq_true hp
  exact ⟨σ, hs, hdone, ((finished_ops_delivered fresh_scatters hs (p := 0) (by decide)).2 1 0 1 le_rfl hdone.ge (by decide) (by decide)).1 0
    Nat.one_pos⟩

/-- What a queue pair carries in every run: writes of released phases in their own stripe and flag line,
nothing of a phase after its flag, and with the flag the whole stripe. No progress thread fails. -/
theorem phases_posted_whole (hf : Fresh P) (hs : Reachable (step P) Unrestricted initial σ) {r : ℕ} (hr : r < c.world) :
    (σ r).host.thread ≠ .failed ∧ ∀ p lane,
      (∀ w ∈ wire (σ r).host p lane, Rang P (σ r).device w.op w.phase ∧ p ∈ peers c (P.op w.op) r w.phase ∧ Fits P r p lane w) ∧
      (wire (σ r).host p lane).Pairwise Follows ∧
      ∀ m k line, .flag m k line ∈ wire (σ r).host p lane → ∀ x, InStripe c (P.op m) r k p lane x →
        Covered (wire (σ r).host p lane) m k x := by
  have h := (reachable_inv hf hs).sender r hr
  refine ⟨fun hfail => ?_, fun p lane => ?_⟩
  · have hok := h.thread.ok
    rw [hfail] at hok
    exact hok
  · have hw := h.wires p lane
    exact ⟨fun w hmem => ⟨hw.rang w hmem, hw.peer w hmem, hw.fits w hmem⟩, hw.closed, hw.covered⟩

theorem phases_posted_whole_firstOp : ∃ σ, Reachable (step scatters) Unrestricted initial σ ∧
    (wire (σ 0).host 1 0).length = 2 ∧ (wire (σ 0).host 1 0).Pairwise Follows := by
  obtain ⟨σ, hs, hp⟩ := Reachable.exists_of_runs (step scatters) initial firstOp
    (fun σ => decide ((wire (σ 0).host 1 0).length = 2)) (by decide +kernel)
  exact ⟨σ, hs, of_decide_eq_true hp, ((phases_posted_whole fresh_scatters hs (r := 0) (by decide)).2 1 0).2.1⟩

/-- The op of a sequence number. -/
def lateOp (early : Bool) (n : ℕ) : Op :=
  if n = 2 ^ 32 ∨ early ∧ n = 1 then ⟨.twoshot, 32⟩ else ⟨.scatter, 32⟩

theorem lateOp_mem (early : Bool) (n : ℕ) : lateOp early n = ⟨.twoshot, 32⟩ ∨ lateOp early n = ⟨.scatter, 32⟩ := by
  unfold lateOp
  split
  · exact .inl rfl
  · exact .inr rfl

/-- A two-shot op after 2^32 - 1 others. -/
def late (early : Bool) : Program pairConfig where
  op := lateOp early
  admitted n := by
    rcases lateOp_mem early n with h | h <;> rw [h] <;> exact ⟨by decide, by decide, by decide⟩

variable {early : Bool} {n r : ℕ}

theorem late_twoshot (h : n = 2 ^ 32) : (late early).op n = ⟨.twoshot, 32⟩ := if_pos (.inl h)

theorem late_scatter (h : ¬(n = 2 ^ 32 ∨ early = true ∧ n = 1)) : (late early).op n = ⟨.scatter, 32⟩ := if_neg h

theorem late_not_described : ((late early).op n).code ≠ .described := by
  rcases lateOp_mem early n with h | h <;> simp [late, h]

theorem late_decode : decodeOpWord ((late early).op n).word = (late early).op n :=
  decodeOpWord_word ((late early).admitted n).word

theorem late_postFirstPhase (hr : r < 2) (d : Option Descriptor) :
    postFirstPhase pairConfig r ((late early).op n) d = some [firstStripe r] := by
  have hstripes : ∀ r < 2, stripes pairConfig ⟨.twoshot, 32⟩ r 0 = [firstStripe r] ∧
      stripes pairConfig ⟨.scatter, 32⟩ r 0 = [firstStripe r] := by decide
  refine (postFirstPhase_eq ((late early).admitted n) hr (absurd · late_not_described)).trans ?_
  rcases lateOp_mem early n with h | h <;> simp [late, h, hstripes r hr]

/-- A rank between phases: the words of its control ring, the writes to its peer that
have not landed, the line of the peer's second phase in slot 0 never written. -/
structure Stage (early : Bool) (r n : ℕ) (kernel : Kernel) (newest : ℕ) (queue : List Write) (s : Rank) : Prop where
  /-- Newest op finished. -/
  epoch : s.device.epoch = n
  kernel : s.device.kernel = kernel
  /-- Newest op released. -/
  doorbell : s.device.doorbell = newest
  opWord : s.device.kernel ≠ .idle → s.device.opWord ((n + 1) % slots) = ((late early).op (n + 1)).word
  /-- Newest op posted. -/
  lastSeq : s.host.lastSeq = newest
  /-- No later phase shows at its doorbell. -/
  told : ∀ k < maxPhases, sameWord (s.device.phaseDoorbell k) (s.host.lastPhaseSeq k) = true
  /-- The newest second phase posted is the one of the early op. -/
  last : s.host.lastPhaseSeq 1 = early.toNat
  /-- No later phase was posted after the first op. -/
  later : ∀ x ∈ s.host.postings, x.phase = 0 ∨ x.seq = 1
  /-- The thread begins its loop. -/
  thread : s.host.thread = .scan 1 none
  /-- Writes to the peer in flight. -/
  queue : s.host.queue (1 - r) 0 = queue
  landed : ∀ w ∈ s.host.landed (1 - r) 0, w.phase = 0 ∨ w.op = 1
  /-- The peer's second phase never wrote its line of slot 0. -/
  line : s.memory.flags (flagLine pairConfig 1 (1 - r) 0 0) = 0
  /-- Nor a pack of slot 0. -/
  recv : ∀ v ∈ s.memory.recv (1 - r) 0 1, v.2 = 0

/-- The steps of one rank in order. -/
def play (P : Program c) (r : ℕ) : Rank → List Act → Option Rank := runs fun s a => s.act P r a

theorem reachable_play {as : List Act} (hr : r < c.world)
    (hs : Reachable (step P) Unrestricted initial σ) (h : play P r (σ r) as = some t) :
    Reachable (step P) Unrestricted initial (update σ r t) := by
  induction as generalizing σ with
  | nil =>
    cases h
    rwa [update_eq_self]
  | cons a as ih =>
    obtain ⟨u, hu, hrest⟩ := Option.bind_eq_some_iff.mp h
    have hnext : Reachable (step P) Unrestricted initial (update σ r u) :=
      .next hs trivial (show step P σ (.act r a) = _ by simp only [step, if_pos hr, hu, Option.map_some])
    have hlast := ih hnext (by rwa [update_self])
    rwa [update_idem] at hlast

theorem play_append {u : Rank} {as bs : List Act} (hs : play P r s as = some t) (ht : play P r t bs = some u) :
    play P r s (as ++ bs) = some u := by
  rw [play] at hs ht ⊢
  rw [runs_append, hs]
  exact ht

/-- The progress thread finds no later phase due. -/
theorem play_scan (P : Program c) (d : Device) (mem : Memory) (m : ℕ) (f : ℕ → ℕ) (more : Option ℕ)
    (ps : List Posting) (q l : ℕ → ℕ → List Write) (hf : ∀ k < maxPhases, sameWord (d.phaseDoorbell k) (f k) = true) :
    play P r ⟨d, ⟨m, f, .scan 1 more, ps, q, l⟩, mem⟩ (List.replicate 7 .poll) = some ⟨d, ⟨m, f, .scan 8 more, ps, q, l⟩, mem⟩ := by
  simp only [maxPhases] at hf
  simp [play, runs, List.replicate, Rank.act, Rank.kernelAct, Rank.threadAct, Host.poll, Host.scanPhase,
    maxPhases, hf]

/-- The kernel stages its op and rings. -/
theorem play_ring (ow f : ℕ → ℕ) (ds : ℕ → Option Descriptor) (h : Host) (mem : Memory) :
    play (late early) r ⟨⟨n, .idle, n, ow, f, ds⟩, h, mem⟩ [.launch, .writeOpWord, .ring] = some ⟨⟨n, .waiting 0 [], n + 1,
        update ow ((n + 1) % slots) ((late early).op (n + 1)).word, f, ds⟩, h, mem⟩ := by
  simp [play, runs, Rank.act, Rank.kernelAct, Device.launch, Device.writeOpWord, Device.ring, Device.current,
    Device.describe, late_not_described]

/-- The thread sees the doorbell and reads the op word. -/
theorem play_read (kernel : Kernel) (ow f g : ℕ → ℕ) (ds : ℕ → Option Descriptor) (mem : Memory)
    (ps : List Posting) (q l : ℕ → ℕ → List Write) (hr : r < 2) : play (late early) r ⟨⟨n, kernel, n + 1,
        update ow ((n + 1) % slots) ((late early).op (n + 1)).word, f, ds⟩, ⟨n, g, .scan 8 none, ps, q, l⟩, mem⟩ (List.replicate 2 .poll) =
      some ⟨⟨n, kernel, n + 1, update ow ((n + 1) % slots) ((late early).op (n + 1)).word, f, ds⟩,
        ⟨n, g, .posting (n + 1) 0 [firstStripe r] (some 0), ps ++ [⟨n + 1, 0, (late early).op (n + 1)⟩], q, l⟩, mem⟩ := by
  have hword : sameWord (n + 1) n = false := by
    by_contra hne
    have heq := eq_of_sameWord (by simpa using hne) (by omega) (by omega)
    omega
  have hahead : ahead (n + 1) n = 1 := by
    rw [ahead_of_near (by omega) (by omega)]
    omega
  simp [play, runs, List.replicate, Rank.act, Rank.kernelAct, Rank.threadAct, Host.poll, maxPhases,
    Host.afterPhases, Host.readDoorbell, hword, hahead, Host.readOpWord, late_decode, late_postFirstPhase hr,
    Host.post, slots]

/-- The thread posts the stripe of the first phase. -/
theorem play_post (P : Program pairConfig) (d : Device) (g : ℕ → ℕ) (mem : Memory) (ps : List Posting) (q l : ℕ → ℕ → List Write) :
    play P r ⟨d, ⟨n, g, .posting (n + 1) 0 [firstStripe r] (some 0), ps, q, l⟩, mem⟩
        [.postData (firstStripe r) 1, .postFlag (rest (firstStripe r) 1), .poll] = some ⟨d, ⟨n + 1, g, .scan 1 (some 0), ps,
        setWire (setWire q (1 - r) 0 (q (1 - r) 0 ++ [.data (n + 1) 0 (1 - r) 1])) (1 - r) 0 (q (1 - r) 0 ++ [.data (n + 1) 0 (1 - r) 1] ++
            [.flag (n + 1) 0 (flagLine pairConfig 0 r ((n + 1) % slots) 0)]), l⟩, mem⟩ := by
  simp [play, runs, Rank.act, Rank.kernelAct, Rank.threadAct, Host.poll, Host.postData, Host.postFlag,
    firstStripe, rest, Host.finishPhase]

/-- The thread begins its loop again. -/
theorem play_again (d : Device) (g : ℕ → ℕ) (mem : Memory) (ps : List Posting) (q l : ℕ → ℕ → List Write) :
    play P r ⟨d, ⟨m, g, .scan 8 (some 0), ps, q, l⟩, mem⟩ [.poll] = some ⟨d, ⟨m, g, .scan 1 none, ps, q, l⟩, mem⟩ := rfl

/-- What a rank has in flight after its first phase. -/
def firstWrites (r n : ℕ) : List Write :=
  [.data n 0 (1 - r) 1, .flag n 0 (flagLine pairConfig 0 r (n % slots) 0)]

/-- A rank runs the first phase of its next op. -/
theorem Stage.first (hr : r < 2) (h : Stage early r n .idle n [] s) : ∃ t, play (late early) r s (firstPhase r) = some t ∧
      Stage early r n (.waiting 0 []) (n + 1) (firstWrites r (n + 1)) t := by
  obtain ⟨⟨epoch, kernel, doorbell, ow, pd, ds⟩, ⟨lastSeq, lp, thread, ps, q, l⟩, mem⟩ := s
  obtain ⟨hepoch, hkernel, hdoorbell, hword, hlast, htold, hlp, hlater, hthread, hqueue, hlanded, hline, hrecv⟩ := h
  simp only at hepoch hkernel hdoorbell hword hlast htold hlp hlater hthread hqueue hlanded hline hrecv
  subst hepoch hkernel hdoorbell hlast hthread
  refine ⟨_, play_append (play_append (play_append (play_append (play_append (play_ring ow _ ds _ mem) (play_scan _ _ _ _ _ _ _ _ _ htold))
    (play_read _ ow _ _ ds mem ps q l hr)) (play_post _ _ _ mem _ q l)) (play_scan _ _ _ _ _ _ _ _ _ htold))
    (play_again _ _ _ _ _ _), ?_⟩
  refine ⟨rfl, rfl, rfl, fun _ => update_self .., rfl, htold, hlp, ?_, rfl, ?_, hlanded, hline, hrecv⟩
  · intro x hx
    rcases List.mem_append.mp hx with hx | hx
    · exact hlater x hx
    · rw [List.mem_singleton.mp hx]
      exact .inl rfl
  · simp [hqueue, firstWrites]

variable {ws : List Write}

theorem reachable_land {p lane : ℕ} {w : Write}
    (hs : Reachable (step P) Unrestricted initial σ) (hr : r < c.world) (hp : p < c.world) (hne : r ≠ p)
    (hq : (σ r).host.queue p lane = w :: ws) : Reachable (step P) Unrestricted initial (land σ r p lane w ws) :=
  .next hs trivial (show step P σ (.land r p lane) = _ by
    simp only [step, if_pos (And.intro hr (And.intro hp hne)), hq])

/-- A rank whose writes landed. -/
theorem Stage.deliver {k : Kernel} {m : ℕ} {w : Write}
    (h : Stage early r n k m (w :: ws) s) (hw : w.phase = 0) :
    Stage early r n k m ws { s with host := s.host.deliver (1 - r) 0 w ws } := by
  refine ⟨h.epoch, h.kernel, h.doorbell, h.opWord, h.lastSeq, h.told, h.last, h.later, h.thread, ?_, ?_, h.line,
    h.recv⟩
  · simp [Host.deliver]
  intro x hx
  simp only [Host.deliver, setWire_self, List.mem_append, List.mem_singleton] at hx
  rcases hx with hx | rfl
  · exact h.landed x hx
  · exact .inl hw

/-- A rank that received a write of a first phase. -/
theorem Stage.receive {k : Kernel} {m i : ℕ} {queue : List Write} {w : Write}
    (h : Stage early r n k m queue s) (hw : w ∈ firstWrites (1 - r) i) :
    Stage early r n k m queue { s with memory := s.memory.receive (1 - r) w } := by
  have hne : flagLine pairConfig 1 (1 - r) 0 0 ≠ flagLine pairConfig 0 (1 - r) (i % slots) 0 := by
    simp only [flagLine, pairConfig, slots]
    omega
  refine ⟨h.epoch, h.kernel, h.doorbell, h.opWord, h.lastSeq, h.told, h.last, h.later, h.thread, h.queue, h.landed, ?_, ?_⟩
  · simp only [firstWrites, List.mem_cons, List.not_mem_nil, or_false] at hw
    rcases hw with rfl | rfl
    · exact h.line
    · simp only [Memory.receive, update_of_ne hne]
      exact h.line
  intro v hv
  simp only [firstWrites, List.mem_cons, List.not_mem_nil, or_false] at hw
  rcases hw with rfl | rfl
  · simp only [Memory.receive, update_self] at hv
    rcases Nat.decEq 0 (i % slots) with hslot | hslot
    · rw [update_of_ne hslot] at hv
      exact h.recv v hv
    rw [← hslot, update_self] at hv
    split at hv
    · cases hv
      rfl
    · exact h.recv v hv
  · exact h.recv v hv

variable {k k' : Kernel} {m m' n' i : ℕ} {queue : List Write}

/-- A write of a rank's first phase lands at the other. -/
theorem land_one {w : Write} (hr : r < 2)
    (hs : Reachable (step (late early)) Unrestricted initial σ) (h : Stage early r n k m (w :: ws) (σ r))
    (h' : Stage early (1 - r) n' k' m' queue (σ (1 - r))) (hw : w ∈ firstWrites r i) :
    ∃ τ, Reachable (step (late early)) Unrestricted initial τ ∧ Stage early r n k m ws (τ r) ∧
      Stage early (1 - r) n' k' m' queue (τ (1 - r)) ∧ (τ r).memory = (σ r).memory ∧
      (τ (1 - r)).memory = (σ (1 - r)).memory.receive r w := by
  have hp : 1 - r < 2 := by omega
  have hne : r ≠ 1 - r := by omega
  have hback : 1 - (1 - r) = r := by omega
  refine ⟨land σ r (1 - r) 0 w ws, reachable_land hs hr hp hne h.queue, ?_, ?_, land_memory_of_ne hne, land_memory⟩
  · have hself : land σ r (1 - r) 0 w ws r = { σ r with host := (σ r).host.deliver (1 - r) 0 w ws } := by
      simp only [land, update_of_ne hne, update_self]
    rw [hself]
    refine h.deliver ?_
    simp only [firstWrites, List.mem_cons, List.not_mem_nil, or_false] at hw
    rcases hw with rfl | rfl <;> rfl
  have hother : land σ r (1 - r) 0 w ws (1 - r) =
      { σ (1 - r) with memory := (σ (1 - r)).memory.receive (1 - (1 - r)) w } := by
    simp only [land, update_self, hback]
  rw [hother]
  exact h'.receive (hback.symm ▸ hw)

/-- Both writes of a rank's first phase land at the other. -/
theorem land_first (hr : r < 2) (hs : Reachable (step (late early)) Unrestricted initial σ)
    (h : Stage early r n k m (firstWrites r i) (σ r)) (h' : Stage early (1 - r) n' k' m' queue (σ (1 - r))) :
    ∃ τ, Reachable (step (late early)) Unrestricted initial τ ∧ Stage early r n k m [] (τ r) ∧
      Stage early (1 - r) n' k' m' queue (τ (1 - r)) ∧ (τ r).memory = (σ r).memory ∧
      (τ (1 - r)).memory.flags (flagLine pairConfig 0 r (i % slots) 0) = i := by
  obtain ⟨υ, hυ, hself, hother, hmemory, -⟩ :=
    land_one hr hs h h' (show Write.data i 0 (1 - r) 1 ∈ firstWrites r i by simp [firstWrites])
  obtain ⟨τ, hτ, hself', hother', hmemory', hreceive⟩ :=
    land_one hr hυ hself hother (show Write.flag i 0 (flagLine pairConfig 0 r (i % slots) 0) ∈ firstWrites r i by
      simp [firstWrites])
  refine ⟨τ, hτ, hself', hother', hmemory'.trans hmemory, ?_⟩
  rw [hreceive]
  simp only [Memory.receive, update_self]

/-- Both ranks released, posted and received the first phase of the op after `n`. -/
def Exchanged (early : Bool) (n : ℕ) (σ : ℕ → Rank) : Prop :=
  Reachable (step (late early)) Unrestricted initial σ ∧ ∀ r < 2,
    Stage early r n (.waiting 0 []) (n + 1) [] (σ r) ∧
      (σ r).memory.flags (flagLine pairConfig 0 (1 - r) ((n + 1) % slots) 0) = n + 1

/-- Both ranks finished `n` ops, and nothing is in flight. -/
def Quiet (early : Bool) (n : ℕ) (σ : ℕ → Rank) : Prop :=
  Reachable (step (late early)) Unrestricted initial σ ∧ ∀ r < 2, Stage early r n .idle n [] (σ r)

theorem exchange (h : Quiet early n σ) : ∃ τ, Exchanged early n τ := by
  obtain ⟨hs, hstage⟩ := h
  obtain ⟨s, hplay, hfirst⟩ := (hstage 0 (by decide)).first (by decide)
  have hs1 := reachable_play (by decide) hs hplay
  have h1 : Stage early 1 n .idle n [] (update σ 0 s 1) := by
    exact hstage 1 (by decide)
  obtain ⟨t, hplay', hfirst'⟩ := h1.first (by decide)
  have hs2 := reachable_play (by decide) hs1 hplay'
  obtain ⟨τ, hτ, h0, h1, -, hflag⟩ := land_first (show 0 < 2 by decide) hs2
    (by rw [update_of_ne (by decide), update_self]; exact hfirst)
    (by rw [update_self]; exact hfirst')
  obtain ⟨υ, hυ, h1', h0', hmemory, hflag'⟩ := land_first (show 1 < 2 by decide) hτ h1 h0
  refine ⟨υ, hυ, fun r hr => ?_⟩
  have hcases : r = 0 ∨ r = 1 := by omega
  rcases hcases with rfl | rfl
  · exact ⟨h0', hflag'⟩
  · exact ⟨h1', by rw [hmemory]; exact hflag⟩

theorem late_peers (early : Bool) (n : ℕ) (hr : r < 2) (k : ℕ) : peers pairConfig ((late early).op n) r k = [1 - r] := by
  have hpeers : ∀ r < 2, peersOf pairConfig r = [1 - r] := by decide
  rcases lateOp_mem early n with h | h <;> simp [late, h, peers, hpeers r hr]

/-- A scatter op ends with its first phase. -/
theorem Stage.finish (hr : r < 2) (h : Stage early r n (.waiting 0 []) (n + 1) [] s)
    (hflag : s.memory.flags (flagLine pairConfig 0 (1 - r) ((n + 1) % slots) 0) = n + 1) (hop : (late early).op (n + 1) = ⟨.scatter, 32⟩) :
    ∃ t, play (late early) r s [.see (1 - r) 0, .advance] = some t ∧ Stage early r (n + 1) .idle (n + 1) [] t := by
  have hpeers := late_peers early (n + 1) hr 0
  obtain ⟨⟨epoch, kernel, doorbell, ow, pd, ds⟩, ⟨lastSeq, lp, thread, ps, q, l⟩, mem⟩ := s
  obtain ⟨hepoch, hkernel, hdoorbell, hword, hlast, htold, hlp, hlater, hthread, hqueue, hlanded, hline, hrecv⟩ := h
  simp only at hepoch hkernel hdoorbell hword hlast htold hlp hlater hthread hqueue hlanded hline hrecv hflag
  subst hepoch hkernel
  refine ⟨⟨⟨epoch + 1, .idle, doorbell, ow, pd, ds⟩, ⟨lastSeq, lp, thread, ps, q, l⟩, mem⟩, ?_,
    ⟨rfl, rfl, hdoorbell, fun hne => absurd rfl hne, hlast, htold, hlp, hlater, hthread, hqueue, hlanded, hline, hrecv⟩⟩
  rw [hop] at hpeers
  have hlanes : pairConfig.laneCount = 1 := rfl
  simp [play, runs, Rank.act, Rank.kernelAct, Device.see, Device.advance, Device.current, hop, hpeers, ns, hflag,
    hlanes, phases, arrived]

/-- Both ranks finish a scatter op. -/
theorem quiet_succ (h : Quiet early n σ) (hop : (late early).op (n + 1) = ⟨.scatter, 32⟩) : ∃ τ, Quiet early (n + 1) τ := by
  obtain ⟨υ, hυ, hstage⟩ := exchange h
  obtain ⟨s, hplay, hfinish⟩ := (hstage 0 (by decide)).1.finish (by decide) (hstage 0 (by decide)).2 hop
  have hs1 := reachable_play (by decide) hυ hplay
  have h1 : update υ 0 s 1 = υ 1 := update_of_ne (by decide) ..
  obtain ⟨t, hplay', hfinish'⟩ := (hstage 1 (by decide)).1.finish (by decide) (hstage 1 (by decide)).2 hop
  have hs2 := reachable_play (by decide) hs1 (h1.symm ▸ hplay')
  refine ⟨_, hs2, fun r hr => ?_⟩
  have hcases : r = 0 ∨ r = 1 := by omega
  rcases hcases with rfl | rfl
  · exact hfinish
  · exact hfinish'

/-- Both ranks finish scatter ops until the late two-shot op. -/
theorem quiet_until {m : ℕ} (h : Quiet early m σ) (hm : early = true → 1 ≤ m) (hle : m ≤ n) (hn : n < 2 ^ 32) : ∃ τ, Quiet early n τ := by
  induction n with
  | zero =>
    have hm0 : m = 0 := by omega
    exact ⟨σ, hm0 ▸ h⟩
  | succ n ih =>
    rcases Nat.lt_or_ge n m with hlt | hge
    · have hmn : m = n + 1 := by omega
      exact ⟨σ, hmn ▸ h⟩
    obtain ⟨τ, hτ⟩ := ih hge (by omega)
    refine quiet_succ hτ (late_scatter ?_)
    rintro (heq | ⟨hearly, heq⟩)
    · omega
    · have := hm hearly
      omega

theorem quiet_initial : Quiet false 0 initial := by
  refine ⟨.start, fun r _ => ⟨rfl, rfl, rfl, fun hne => absurd rfl hne, rfl, fun k _ => rfl, rfl, ?_, rfl, rfl, ?_, rfl, ?_⟩⟩
  · intro x hx
    exact absurd hx (List.not_mem_nil)
  · intro w hw
    exact absurd hw (List.not_mem_nil)
  · intro v hv
    cases hv

/-- A rank takes the word that was never written for the flag of sequence 2^32. -/
theorem play_stale (early : Bool) (hr : r < 2) (hepoch : s.device.epoch = n) (hkernel : s.device.kernel = .waiting 0 [])
    (hline : s.memory.flags (flagLine pairConfig 1 (1 - r) 0 0) = 0) (hn : n + 1 = 2 ^ 32)
    (hflag : s.memory.flags (flagLine pairConfig 0 (1 - r) ((n + 1) % slots) 0) = n + 1) :
    play (late early) r s [.see (1 - r) 0, .advance, .see (1 - r) 0] = some { s with
      device := { s.device with
        kernel := .waiting 1 [(1 - r, 0)]
        phaseDoorbell := update s.device.phaseDoorbell 1 (n + 1) } } := by
  have hop : (late early).op (n + 1) = ⟨.twoshot, 32⟩ := late_twoshot hn
  have hpeers : ∀ k, peers pairConfig ⟨.twoshot, 32⟩ r k = [1 - r] := by
    intro k
    rw [← hop]
    exact late_peers early (n + 1) hr k
  have hslot : (n + 1) % slots = 0 := by
    rw [hn]
    decide
  have hword : sameWord 0 (n + 1) = true := by
    rw [hn]
    decide
  obtain ⟨⟨epoch, kernel, doorbell, ow, pd, ds⟩, ⟨lastSeq, lp, thread, ps, q, l⟩, mem⟩ := s
  simp only at hepoch hkernel hline hflag
  subst hepoch hkernel
  rw [hslot] at hflag
  have hlanes : pairConfig.laneCount = 1 := rfl
  simp only [play, runs, Rank.act, Rank.kernelAct, Device.see, Device.advance, Device.current, hop, hpeers, ns,
    hslot]
  simp [hflag, hlanes, phases, arrived, hpeers, hline, hword, hslot, Device.describe, hop, Device.current]

/-- It finishes the late op on that word. -/
theorem play_finish_stale (early : Bool) (hr : r < 2) (hepoch : s.device.epoch = n)
    (hkernel : s.device.kernel = .waiting 0 []) (hline : s.memory.flags (flagLine pairConfig 1 (1 - r) 0 0) = 0)
    (hn : n + 1 = 2 ^ 32)
    (hflag : s.memory.flags (flagLine pairConfig 0 (1 - r) ((n + 1) % slots) 0) = n + 1) :
    play (late early) r s ([.see (1 - r) 0, .advance, .see (1 - r) 0] ++ [.advance]) = some { s with
      device := { s.device with
        kernel := .idle
        epoch := n + 1
        phaseDoorbell := update s.device.phaseDoorbell 1 (n + 1) } } := by
  have hop : (late early).op (n + 1) = ⟨.twoshot, 32⟩ := late_twoshot hn
  have hpeers : peers pairConfig ⟨.twoshot, 32⟩ r 1 = [1 - r] := by
    rw [← hop]
    exact late_peers early (n + 1) hr 1
  have hlanes : pairConfig.laneCount = 1 := rfl
  rw [play, runs_append, ← play, play_stale early hr hepoch hkernel hline hn hflag]
  simp [play, runs, Rank.act, Rank.kernelAct, Device.advance, Device.current, hepoch, hop, hpeers, hlanes,
    phases, arrived]

/-- The two ranks break the promise of the two slots at sequence 2^32: rank 0 saw a
flag of the second phase, and no pack of that phase is there. -/
theorem slots_fail_late : ∃ σ, Reachable (step (late false)) Unrestricted initial σ ∧ ¬SlotSafe (late false) σ := by
  obtain ⟨σ, hσ⟩ := quiet_until quiet_initial (by decide) (Nat.zero_le (2 ^ 32 - 1)) (by decide)
  obtain ⟨τ, hs, hstage⟩ := exchange hσ
  obtain ⟨hstage0, hflag⟩ := hstage 0 (by decide)
  have hplay := play_stale false (by decide) hstage0.epoch hstage0.kernel hstage0.line (by decide) hflag
  refine ⟨_, reachable_play (by decide) hs hplay, fun hsafe => ?_⟩
  have hcurrent : (τ 0).device.epoch + 1 = 2 ^ 32 := by
    have hepoch := (hstage 0 (by decide)).1.epoch
    omega
  have hop : (late false).op (2 ^ 32) = ⟨.twoshot, 32⟩ := late_twoshot rfl
  have hseen := hsafe.seen 0 (by decide) 1 [(1, 0)] (by rw [Function.update_self]) 1 1 0
  simp only [Function.update_self, Device.current, hcurrent, hop] at hseen
  have hawaits : Awaits (late false) 0 (2 ^ 32) 1 1 0 := by
    refine ⟨by decide, ?_, ?_, by decide⟩
    · decide
    · decide
  have hrecv := hseen hawaits (.inr (by simp)) 1 ⟨by decide, by decide⟩
  have hzero := (hstage 0 (by decide)).1.recv (2 ^ 32, 1) hrecv
  exact absurd hzero (by decide)

end SparkRing.ArenaSlots
