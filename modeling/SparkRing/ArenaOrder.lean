import SparkRing.ArenaInvariant

/-!
# Order of the ops on a queue pair

A progress thread looks for later phases before it reads the op doorbell. When the
second phase of an op rings after that look and the kernel finishes the op before
the doorbell is read, the thread posts the first phase of the next op first. In runs
in which no second phase is due when the thread finds a new op at the doorbell, every
queue pair carries all writes of an op before any write of the next.
-/

namespace SparkRing.ArenaOrder

open TransitionSystem SequenceWord ArenaSession ArenaPlan ArenaKernel ArenaPosting ArenaWires ArenaInvariant

variable {c : Config} {P : Program c} {σ : ℕ → Rank} {m k p r lane : ℕ} {d : Device} {h g : Host}

/-- On every queue pair the writes of an op precede those of later ops: before a write
of an op, every stripe of every phase of every earlier op is posted whole. -/
def QueueOrder (P : Program c) (r : ℕ) (h : Host) : Prop :=
  ∀ p lane older w newer, wire h p lane = older ++ w :: newer →
    (∀ v ∈ newer, w.op ≤ v.op) ∧
    ∀ m, 1 ≤ m → m < w.op → ∀ k < phases c (P.op m), p ∈ peers c (P.op m) r k →
      .flag m k (lineOf P m k r lane) ∈ older ∧
        ∀ x, InStripe c (P.op m) r k p lane x → Covered older m k x

/-- The phase loop would post phase `k`. -/
def due (d : Device) (h : Host) (k : ℕ) : Bool :=
  !sameWord (d.phaseDoorbell k) (h.lastPhaseSeq k) && !decide (0 < gap (d.phaseDoorbell k) (h.before k))

/-- No second phase is due when the progress thread finds a new op at the doorbell. -/
def Settled (σ : ℕ → Rank) (a : Action) : Prop :=
  ∀ r k, a = .act r .poll → (σ r).host.thread = .scan k none → maxPhases ≤ k →
    sameWord (σ r).device.doorbell (σ r).host.lastSeq = false → due (σ r).device (σ r).host 1 = false

/-- Every flag of a phase is posted. -/
def Posted (P : Program c) (r : ℕ) (h : Host) (m k : ℕ) : Prop :=
  ∀ p ∈ peers c (P.op m) r k, ∀ lane < c.laneCount, .flag m k (lineOf P m k r lane) ∈ wire h p lane

def AllPosted (P : Program c) (r : ℕ) (h : Host) (m : ℕ) : Prop := ∀ k < phases c (P.op m), Posted P r h m k

/-- Before the next op is posted, the newest is posted whole; while a later phase is
posted, its op is the newest. -/
def OrderOk (P : Program c) (r : ℕ) (h : Host) : Thread → Prop
  | .scan k (some (_ + 1)) => 2 ≤ k → 1 ≤ h.lastSeq → AllPosted P r h h.lastSeq
  | .scan _ _ => True
  | .phaseWord _ m _ => m ≤ h.lastSeq
  | .opWord _ => 1 ≤ h.lastSeq → AllPosted P r h h.lastSeq
  | .posting m k _ _ => (∀ i, 1 ≤ i → i < m → AllPosted P r h i) ∧ (1 ≤ k → m = h.lastSeq)
  | .failed => True

/-- What holds of a progress thread that posts the ops in order. -/
structure OrderInv (P : Program c) (r : ℕ) (h : Host) : Prop where
  /-- The first phase of the newest op is posted. -/
  first : 1 ≤ h.lastSeq → Posted P r h h.lastSeq 0
  /-- Older ops are posted whole. -/
  older : ∀ m, 1 ≤ m → m < h.lastSeq → AllPosted P r h m
  second : 1 ≤ h.lastPhaseSeq 1 → Posted P r h (h.lastPhaseSeq 1) 1
  /-- The point of the loop. -/
  ok : OrderOk P r h h.thread
  /-- Every earlier op's flags come before a write. -/
  wires : ∀ p lane older w newer, wire h p lane = older ++ w :: newer → ∀ m, 1 ≤ m → m < w.op →
    ∀ k < phases c (P.op m), p ∈ peers c (P.op m) r k → .flag m k (lineOf P m k r lane) ∈ older

/-- An op that is not described has one or two phases, each to every peer. -/
theorem phases_le (hn : (P.op m).code ≠ .described) : phases c (P.op m) ≤ 2 := by
  unfold phases
  split <;> simp_all

theorem peers_eq (hn : (P.op m).code ≠ .described) : peers c (P.op m) r k = peersOf c r := by
  unfold peers
  split <;> simp_all

theorem ns_eq (hn : (P.op m).code ≠ .described) : ns c (P.op m) k = k := by
  unfold ns
  split <;> simp_all

/-- A write of a phase posted whole to a peer is not followed by one of it. -/
theorem posted_grows (hw : ∀ p lane w, w ∈ wire h p lane → w ∈ wire g p lane) (hp : Posted P r h m k) :
    Posted P r g m k := fun p hpeer lane hl => hw p lane _ (hp p hpeer lane hl)

theorem allPosted_grows (hw : ∀ p lane w, w ∈ wire h p lane → w ∈ wire g p lane) (hp : AllPosted P r h m) :
    AllPosted P r g m := fun k hk => posted_grows hw (hp k hk)

theorem taken_of_posted (hs : SenderInv P r d h) (hr : r < c.world) (hk : k < phases c (P.op m)) (hp : Posted P r h m k) : Taken h m k := by
  obtain ⟨p, hpeer⟩ := exists_peer (P := P) (m := m) hr hk
  exact (hs.wires p 0).taken _ (hp p hpeer 0 c.laneCount_pos)

/-- A phase that ended is posted. -/
theorem posted_of_end {more : Option ℕ} (hs : SenderInv P r d h) (hth : h.thread = .posting m k [] more) : Posted P r h m k := by
  intro p hpeer lane hl
  rcases (hs.wires p lane).kept m k [] more hth hpeer hl with ⟨line, hmem⟩ | ⟨st, hst, -⟩
  · have hfit : line = lineOf P m k r lane := (hs.wires p lane).fits _ hmem
    rwa [hfit] at hmem
  · exact absurd hst (List.not_mem_nil)

/-- A second phase that is not due when a newer op rang is posted. -/
theorem allPosted_of_not_due (hinv : Inv P σ) (hf : Fresh P) (hn : ∀ n, (P.op n).code ≠ .described)
    (hr : r < c.world) (ho : OrderInv P r (σ r).host) (hth : ∀ m k todo more, (σ r).host.thread ≠ .posting m k todo more)
    (hlt : (σ r).host.lastSeq < (σ r).device.doorbell) (hdue : due (σ r).device (σ r).host 1 = false)
    (hpos : 1 ≤ (σ r).host.lastSeq) : AllPosted P r (σ r).host (σ r).host.lastSeq := by
  obtain ⟨last, hlast⟩ : ∃ last, last = (σ r).host.lastSeq := ⟨_, rfl⟩
  obtain ⟨bell, hbell⟩ : ∃ bell, bell = (σ r).device.phaseDoorbell 1 := ⟨_, rfl⟩
  have hs := hinv.sender r hr
  have hnear := hs.kernel.doorbell_le
  have hflushed := hinv.flushed hr
  rw [← hlast] at hlt hpos ⊢
  intro k hk
  have hk2 := phases_le (hn last)
  have hcases : k = 0 ∨ k = 1 := by omega
  rcases hcases with rfl | rfl
  · rw [hlast] at hpos ⊢
    exact ho.first hpos
  have hrang : Rang P (σ r).device last 1 := ⟨hpos, hk, .inl (by omega)⟩
  have hle : last ≤ bell := hbell ▸ hs.kernel.rang_le 1 le_rfl last hrang
  have hrangBell : Rang P (σ r).device bell 1 := hbell ▸ hs.kernel.rang_of 1 le_rfl (by omega)
  -- once a newer second phase rang, every peer has finished the op
  have hnewer : last < bell → Posted P r (σ r).host last 1 := by
    intro hgt q hq lane hl
    have hqBell : q ∈ peers c (P.op bell) r 0 := by
      rw [peers_eq (hn _)] at hq ⊢
      exact hq
    have hqRang := hinv.rang_of_passed hr (by omega) (phases_pos P bell) (by
      rcases hrangBell.passed with hle | ⟨heq, hk1⟩
      · exact .inl hle
      · exact .inr ⟨heq, hk1⟩) hqBell
    have hqw := peers_lt hr hk hq
    have hqLe := hqRang.le
    exact mem_wire_of_landed (hinv.saw q hqw last 1 r lane ⟨hpos, hk, peers_symm hr hk hq, hl⟩
      (.inl (by omega)))
  rcases Nat.lt_or_ge last bell with hgt | hge
  · exact hnewer hgt
  have heq : bell = last := by omega
  -- the loop's own test found the phase posted
  have hsame : sameWord bell ((σ r).host.lastPhaseSeq 1) = true := by
    have hgap : gap bell last = 0 := by
      rw [heq, gap_of_near (by omega) (by omega)]
      omega
    have hbefore : (σ r).host.before 1 = last := hlast.symm
    rw [due, ← hbell, hbefore, hgap] at hdue
    simpa using hdue
  obtain ⟨newest1, hnewest⟩ : ∃ newest1, newest1 = (σ r).host.lastPhaseSeq 1 := ⟨_, rfl⟩
  rw [← hnewest] at hsame
  have hold : newest1 ≤ bell := hnewest ▸ hbell ▸ hs.thread.newest_le 1 le_rfl
  have hlast1 : newest1 = last := by
    by_contra hne
    obtain ⟨q, hq⟩ := exists_peer (P := P) (m := bell) hr hrangBell.phase
    obtain ⟨i, hlt, hi, hipos, hslot, j, hj, hpeer, hns⟩ := hf bell 1 q r (peers_lt hr hrangBell.phase hq)
      hrangBell.phase (peers_symm hr hrangBell.phase hq) newest1 (by omega) (by
        rw [sameWord_iff] at hsame ⊢
        exact hsame.symm) (by
        rcases Nat.eq_zero_or_pos newest1 with hz | hpos1
        · exact .inl hz
        have hposted := ho.second (by omega)
        rw [← hnewest] at hposted
        have hpeer : q ∈ peers c (P.op newest1) r 1 := by rwa [peers_eq (hn _)] at hq ⊢
        have hphase := ((hs.wires q 0).rang _ (hposted q hpeer 0 c.laneCount_pos)).phase
        refine .inr ⟨hpos1, ?_, 1, hphase, hpeer, by rw [ns_eq (hn _), ns_eq (hn _)]⟩
        rw [sameWord_iff] at hsame
        simp only [slots]
        omega)
    rw [ns_eq (hn _), ns_eq (hn _)] at hns
    subst hns
    rcases hflushed i hipos (by simp only [slots] at hslot; omega) 1 hj with hle | ⟨todo, more, hp⟩
    · have hle' : i ≤ newest1 := hnewest ▸ hle
      omega
    · exact absurd hp (hth _ _ _ _)
  have hsecond := ho.second (by omega)
  rw [← hnewest, hlast1] at hsecond
  exact hsecond

theorem OrderInv.initial : OrderInv P r Rank.initial.host := by
  refine ⟨fun hle => absurd hle (by decide), ?_, fun hle => absurd hle (by decide), trivial, ?_⟩
  · intro m hm hlt
    exact absurd hlt (Nat.not_lt_zero _)
  intro p lane older w newer hsplit
  have hnil : older ++ w :: newer = [] := hsplit.symm
  simp at hnil

theorem OrderOk.frame {t : Thread} (hl : g.lastSeq = h.lastSeq) (hw : wire g = wire h) (ok : OrderOk P r h t) : OrderOk P r g t := by
  have hall : ∀ {i}, AllPosted P r h i → AllPosted P r g i := fun hi => by
    simpa only [AllPosted, Posted, hw] using hi
  match t, ok with
  | .scan _ none, _ => trivial
  | .scan _ (some 0), _ => trivial
  | .scan _ (some (_ + 1)), ok =>
    intro hk hle
    rw [hl] at hle ⊢
    exact hall (ok hk hle)
  | .phaseWord _ m _, ok =>
    change m ≤ g.lastSeq
    rw [hl]
    exact ok
  | .opWord _, ok =>
    intro hle
    rw [hl] at hle ⊢
    exact hall (ok hle)
  | .posting .., ok => exact ⟨fun i hi hlt => hall (ok.1 i hi hlt), hl.symm ▸ ok.2⟩
  | .failed, _ => trivial

/-- A step that posts nothing. -/
theorem OrderInv.frame (ho : OrderInv P r h) (hl : g.lastSeq = h.lastSeq) (hp : g.lastPhaseSeq = h.lastPhaseSeq)
    (hw : wire g = wire h) (ok : OrderOk P r g g.thread) : OrderInv P r g := by
  have hposted : ∀ {i j}, Posted P r h i j → Posted P r g i j := fun hi => by
    simpa only [Posted, hw] using hi
  refine ⟨?_, ?_, ?_, ok, ?_⟩
  · rw [hl]
    exact fun hle => hposted (ho.first hle)
  · rw [hl]
    exact fun m hm hlt k hk => hposted (ho.older m hm hlt k hk)
  · rw [hp]
    exact fun hle => hposted (ho.second hle)
  · rw [hw]
    exact ho.wires

theorem OrderInv.looks (ho : OrderInv P r h) (t : Thread) (ok : OrderOk P r h t) :
    OrderInv P r { h with thread := t } := ho.frame rfl rfl rfl (ok.frame rfl rfl)

section Poll

variable (hinv : Inv P σ) (hf : Fresh P) (hn : ∀ n, (P.op n).code ≠ .described) (hr : r < c.world)
  (ho : OrderInv P r (σ r).host)

include hinv hf hn hr ho

variable {more : Option ℕ}

section

variable (hth : (σ r).host.thread = .scan k more)

include hth

/-- The phase loop goes on to the next phase. -/
theorem OrderInv.skip
    (hdue : k = 1 → due (σ r).device (σ r).host 1 = false) :
    OrderInv P r { (σ r).host with thread := .scan (k + 1) more } := by
  have hthread := (hinv.sender r hr).thread.ok
  have hok := ho.ok
  rw [hth] at hthread hok
  refine ho.looks _ ?_
  match more, hthread, hok with
  | none, _, _ => trivial
  | some 0, _, _ => trivial
  | some (j + 1), hthread, hok =>
    intro _ hle
    have hmore := hthread.2 (j + 1) rfl
    rcases Nat.lt_or_ge k 2 with hlt | hge
    · exact allPosted_of_not_due hinv hf hn hr ho (by simp [hth]) (by omega) (hdue (by omega)) hle
    · exact hok hge hle

theorem OrderInv.scanPhase : OrderInv P r ((σ r).host.scanPhase (σ r).device k more) := by
  have hs := hinv.sender r hr
  have hthread := (hs.thread.scanPhase hs.kernel hth).1.ok
  have hb : ∀ m k todo more, (σ r).host.thread ≠ .posting m k todo more := by simp [hth]
  unfold Host.scanPhase at hthread ⊢
  by_cases hsame : sameWord ((σ r).device.phaseDoorbell k) ((σ r).host.lastPhaseSeq k)
  · rw [if_pos hsame]
    exact ho.skip hinv hf hn hr hth fun hk => by subst hk; simp [due, hsame]
  rw [if_neg hsame] at hthread ⊢
  by_cases hgap : 0 < gap ((σ r).device.phaseDoorbell k) ((σ r).host.before k)
  · rw [if_pos hgap]
    exact ho.skip hinv hf hn hr hth fun hk => by subst hk; simp [due, hgap]
  rw [if_neg hgap] at hthread ⊢
  obtain ⟨hk1, -, hrang, -⟩ := hthread
  have hk2 := phases_le (hn ((σ r).device.phaseDoorbell k))
  have hphase := hrang.phase
  have hk : k = 1 := by omega
  subst hk
  refine ho.looks _ ?_
  change (σ r).device.phaseDoorbell 1 ≤ (σ r).host.lastSeq
  by_contra hgt
  have hle := hrang.le
  have hepoch : (σ r).device.epoch ≤ (σ r).host.lastSeq + 1 := by
    rcases Nat.lt_or_ge (σ r).device.epoch 2 with hlt | hge
    · omega
    rcases hinv.flushed hr ((σ r).device.epoch - 1) (by omega) (by omega) 0 (phases_pos P _) with
      htaken | ⟨todo, more, hp⟩
    · have htaken' : (σ r).device.epoch - 1 ≤ (σ r).host.lastSeq := htaken
      omega
    · exact absurd hp (hb _ _ _ _)
  have hbefore : (σ r).host.before 1 = (σ r).host.lastSeq := rfl
  rw [hbefore, gap_of_near (by omega) (by omega)] at hgap
  omega

theorem OrderInv.afterPhases (hk : ¬k < maxPhases)
    (hset : Settled σ (.act r .poll)) : OrderInv P r ((σ r).host.afterPhases (σ r).device more) := by
  have hs := hinv.sender r hr
  have hle := hs.thread.lastSeq_le
  have hok := ho.ok
  rw [hth] at hok
  have hb : ∀ m k todo more, (σ r).host.thread ≠ .posting m k todo more := by simp [hth]
  match more, hok, hth with
  | none, _, hth =>
    simp only [Host.afterPhases, Host.readDoorbell]
    split
    case isTrue => exact ho.looks _ trivial
    case isFalse hne =>
      split
      case isTrue => exact ho.looks _ trivial
      case isFalse =>
        refine ho.looks _ ?_
        have hlt : (σ r).host.lastSeq < (σ r).device.doorbell := by
          refine lt_of_le_of_ne hle fun heq => hne ?_
          rw [heq]
          exact sameWord_self _
        exact allPosted_of_not_due hinv hf hn hr ho hb hlt
          (hset r k rfl hth (by omega) (by simpa using hne))
  | some 0, _, _ => exact ho.looks _ trivial
  | some (j + 1), hok, _ =>
    have hmax : maxPhases = 8 := rfl
    exact ho.looks _ fun hpos => hok (by omega) hpos

end

theorem OrderInv.poll (hset : Settled σ (.act r .poll)) (ha : (σ r).host.poll c r (σ r).device = some g) : OrderInv P r g := by
  have hs := hinv.sender r hr
  unfold Host.poll at ha
  split at ha
  case h_1 k more hth =>
    cases ha
    split
    case isTrue => exact ho.scanPhase hinv hf hn hr hth
    case isFalse hk => exact ho.afterPhases hinv hf hn hr hth hk hset
  case h_2 k m more hth =>
    cases ha
    obtain ⟨-, hstarts⟩ := hs.thread.readPhaseWord hs.kernel (hinv.flushed hr) hr hth
    have hok := ho.ok
    rw [hth] at hok
    have hle : m ≤ (σ r).host.lastSeq := hok
    obtain ⟨more', hpost⟩ := hstarts.thread
    rw [hpost]
    refine ho.frame rfl rfl rfl ⟨fun i hi hlt => ho.older i hi (by omega), fun _ => ?_⟩
    by_contra hne
    have hall := ho.older m hstarts.rang.pos (by change m ≠ (σ r).host.lastSeq at hne; omega)
    exact hstarts.fresh (taken_of_posted hs hr hstarts.rang.phase (hall k hstarts.rang.phase))
  case h_3 j hth =>
    cases ha
    obtain ⟨-, hstarts⟩ := hs.thread.readOpWord hs.kernel (hinv.flushed hr) hr hth
    have hok := ho.ok
    rw [hth] at hok
    obtain ⟨more', hpost⟩ := hstarts.thread
    rw [hpost]
    refine ho.frame rfl rfl rfl ⟨fun i hi hlt => ?_, fun h1 => absurd h1 (by decide)⟩
    rcases Nat.lt_or_ge i (σ r).host.lastSeq with hlt' | hge
    · exact ho.older i hi hlt'
    have heq : i = (σ r).host.lastSeq := by omega
    subst heq
    exact hok hi
  case h_4 m k more hth =>
    cases ha
    have hposted := posted_of_end hs hth
    have hthread := hs.thread.ok
    have hok := ho.ok
    rw [hth] at hthread hok
    obtain ⟨-, hzero, hrang, -⟩ := hthread
    unfold Host.finishPhase
    split
    case isTrue hk0 =>
      subst hk0
      refine ⟨fun _ => hposted, fun i hi hlt => hok.1 i hi hlt, ho.second, ?_, ho.wires⟩
      match more with
      | none | some 0 => trivial
      | some (j + 1) => exact fun h2 => absurd h2 (by decide)
    case isFalse hk0 =>
      have hk2 := phases_le (hn m)
      have hphase := hrang.phase
      have hk : k = 1 := by omega
      subst hk
      have hm : m = (σ r).host.lastSeq := hok.2 le_rfl
      refine ⟨ho.first, ho.older, fun _ => ?_, ?_, ho.wires⟩
      · exact hposted
      have hall : 1 ≤ (σ r).host.lastSeq → AllPosted P r (σ r).host (σ r).host.lastSeq := by
        intro hpos j hj
        have hj2 := phases_le (hn (σ r).host.lastSeq)
        have hcases : j = 0 ∨ j = 1 := by omega
        rcases hcases with rfl | rfl
        · exact ho.first hpos
        · rw [← hm]
          exact hposted
      match more with
      | none | some 0 => trivial
      | some (j + 1) => exact fun _ hpos => hall hpos
  case h_5 => cases ha

end Poll

variable {st : Stripe}

/-- A write of the phase being posted joins a queue pair. -/
theorem OrderInv.join {todo todo' : List Stripe} {more : Option ℕ} {w : Write}
    (ho : OrderInv P r h) (hth : h.thread = .posting m k todo more) (hop : w.op = m) (hl : st.lane < c.laneCount) :
    OrderInv P r { h with
      thread := .posting m k todo' more
      queue := setWire h.queue st.peer st.lane (h.queue st.peer st.lane ++ [w]) } := by
  have hgrow : ∀ p lane v, v ∈ wire h p lane → v ∈ wire { h with
      thread := .posting m k todo' more
      queue := setWire h.queue st.peer st.lane (h.queue st.peer st.lane ++ [w]) } p lane := by
    intro p lane v hv
    rw [wire_setWire]
    split
    case isTrue heq => exact List.mem_append_left _ (heq.1 ▸ heq.2 ▸ hv)
    case isFalse => exact hv
  have hok := ho.ok
  rw [hth] at hok
  refine ⟨fun hle => posted_grows hgrow (ho.first hle), fun i hi hlt => allPosted_grows hgrow (ho.older i hi hlt),
    fun hle => posted_grows hgrow (ho.second hle),
    ⟨fun i hi hlt => allPosted_grows hgrow (hok.1 i hi hlt), hok.2⟩, ?_⟩
  intro p lane older v newer hsplit i hi hlt j hj hp
  rw [wire_setWire] at hsplit
  split at hsplit
  case isFalse => exact ho.wires p lane older v newer hsplit i hi hlt j hj hp
  case isTrue heq =>
    obtain ⟨rfl, rfl⟩ := heq
    rcases List.eq_nil_or_concat newer with rfl | ⟨newer', u, rfl⟩
    · have hinj := List.append_inj' hsplit rfl
      cases hinj.2
      rw [← hinj.1]
      exact hok.1 i hi (hop ▸ hlt) j hj _ hp _ hl
    have hassoc : wire h st.peer st.lane ++ [w] = (older ++ v :: newer') ++ [u] := by
      rw [hsplit]
      simp
    have hinj := List.append_inj' hassoc rfl
    exact ho.wires _ _ older v newer' hinj.1 i hi hlt j hj hp

theorem OrderInv.postData {n : ℕ} (hs : SenderInv P r d h) (ho : OrderInv P r h) (ha : h.postData st n = some g) : OrderInv P r g := by
  unfold Host.postData at ha
  split at ha
  case h_2 => cases ha
  case h_1 m k todo more hth =>
    obtain ⟨hg, rfl⟩ := Option.ite_some_none_eq_some.mp ha
    have hok := hs.thread.ok
    rw [hth] at hok
    exact ho.join hth rfl (hok.2.2.2.2.2 st hg.1).lane

theorem OrderInv.postFlag (hs : SenderInv P r d h) (ho : OrderInv P r h) (ha : h.postFlag c r st = some g) : OrderInv P r g := by
  unfold Host.postFlag at ha
  split at ha
  case h_2 => cases ha
  case h_1 m k todo more hth =>
    obtain ⟨hg, rfl⟩ := Option.ite_some_none_eq_some.mp ha
    have hok := hs.thread.ok
    rw [hth] at hok
    exact ho.join hth rfl (hok.2.2.2.2.2 st hg.1).lane

/-- Every settled run keeps the ops of each queue pair in order. -/
theorem reachable_order (hf : Fresh P) (hn : ∀ n, (P.op n).code ≠ .described)
    (hs : Reachable (step P) Settled initial σ) : ∀ r < c.world, OrderInv P r (σ r).host := by
  refine hs.invariant (fun σ => ∀ r < c.world, OrderInv P r (σ r).host) (fun r _ => OrderInv.initial) ?_
  intro σ a τ hreach ho hset ha
  have hinv := reachable_inv hf hreach
  rcases step_cases ha with ⟨u, e, t, rfl, hu, ht, rfl⟩ | ⟨u, p, lane, w, ws, -, hu, -, hne, hq, rfl⟩
  · intro r hr
    rcases Nat.decEq r u with hru | rfl
    · rw [Function.update_of_ne hru]
      exact ho r hr
    rw [Function.update_self]
    rcases Rank.act_cases ht with ⟨d, -, rfl⟩ | ⟨g, hg, rfl⟩
    · exact ho r hr
    cases e with
    | poll => exact (ho r hr).poll hinv hf hn hr hset hg
    | postData => exact (ho r hr).postData (hinv.sender r hr) hg
    | postFlag => exact (ho r hr).postFlag (hinv.sender r hr) hg
    | launch | writeOpWord | ring | see | advance => cases hg
  · intro r hr
    rcases Nat.decEq r u with hru | rfl
    · rw [land_host_of_ne hru]
      exact ho r hr
    rw [land_host hne]
    have hok : OrderOk P r ((σ r).host.deliver p lane w ws) (σ r).host.thread :=
      @OrderOk.frame c P r (σ r).host _ _ rfl (wire_deliver hq) (ho r hr).ok
    exact (ho r hr).frame rfl rfl (wire_deliver hq) hok

/-- In every run of one-shot, two-shot and scatter ops in which no second phase is due
when a progress thread finds a new op at the doorbell, every queue pair carries all
writes of an op before any write of a later one. -/
theorem queue_pair_order (hf : Fresh P) (hn : ∀ n, (P.op n).code ≠ .described)
    (hs : Reachable (step P) Settled initial σ) (hr : r < c.world) : QueueOrder P r (σ r).host := by
  have ho := reachable_order hf hn hs r hr
  have hsender := (reachable_inv hf hs).sender r hr
  intro p lane older w newer hsplit
  have hwire := hsender.wires p lane
  have hclosed := hwire.closed
  rw [hsplit, List.pairwise_append] at hclosed
  have hflags := ho.wires p lane older w newer hsplit
  have hmem : ∀ v ∈ newer, v ∈ wire (σ r).host p lane := by
    intro v hv
    rw [hsplit]
    exact List.mem_append_right _ (List.mem_cons_of_mem _ hv)
  refine ⟨fun v hv => ?_, fun m hm hlt k hk hp => ⟨hflags m hm hlt k hk hp, fun x hx => ?_⟩⟩
  · by_contra hlt
    have hrang := hwire.rang v (hmem v hv)
    have hflag := hflags v.op hrang.pos (by omega) v.phase hrang.phase (hwire.peer v (hmem v hv))
    exact hclosed.2.2 _ hflag v (List.mem_cons_of_mem _ hv) ⟨rfl, rfl⟩
  have hflag := hflags m hm hlt k hk hp
  have hin : .flag m k (lineOf P m k r lane) ∈ wire (σ r).host p lane := by
    rw [hsplit]
    exact List.mem_append_left _ hflag
  obtain ⟨first, count, hdata, hx⟩ := hwire.covered m k _ hin x hx
  refine ⟨first, count, ?_, hx⟩
  rw [hsplit] at hdata
  rcases List.mem_append.mp hdata with hold | hnew
  · exact hold
  · exact absurd ⟨rfl, rfl⟩ (hclosed.2.2 _ hflag _ hnew)

/-- Two ranks, one lane, slots of four packs. -/
def twoRanks : Config := ⟨2, 1, 64, two_le_two, two_le_sixteen, Nat.one_pos⟩

/-- Two ranks run two-shot ops of two packs. -/
def twoshots : Program twoRanks where
  op _ := ⟨.twoshot, 32⟩
  admitted _ := ⟨by decide, by decide, by decide⟩

theorem fresh_twoshots : Fresh twoshots := by
  intro n k p q hp hk hq j hj hword _
  have hqp := mem_peersOf.mp hq
  rw [sameWord_iff] at hword
  exact ⟨n - 2, by omega, by omega, by omega, by simp only [slots]; omega, k, hk,
    mem_peersOf.mpr ⟨hp, hqp.2.symm⟩, rfl⟩

/-- A rank runs, posts and delivers the first phase of the first op to the other. -/
def firstPhase (r : ℕ) : List Action :=
  [.act r .launch, .act r .writeOpWord, .act r .ring] ++ List.replicate 9 (.act r .poll) ++
    [.act r (.postData ⟨1 - r, 0, 1 - r, 1, 0⟩ 1), .act r (.postFlag ⟨1 - r, 0, 2 - r, 0, 0⟩), .act r .poll,
      .land r (1 - r) 0, .land r (1 - r) 0]

/-- A rank reduces its chunk and rings the second phase. -/
def reduce (r : ℕ) : List Action := [.act r (.see (1 - r) 0), .act r .advance]

/-- A rank posts its reduced chunk. -/
def secondPhase (r : ℕ) : List Action :=
  List.replicate 2 (.act r .poll) ++
    [.act r (.postData ⟨1 - r, 0, r, 1, 1⟩ 1), .act r (.postFlag ⟨1 - r, 0, r + 1, 0, 1⟩), .act r .poll]

/-- The second phase rings before the thread looks for it. -/
def orderly : List Action := firstPhase 0 ++ firstPhase 1 ++ reduce 0 ++ secondPhase 0

/-- The second phase rings after the thread looked for it, and the kernel finishes the
op and rings the next before the thread reads the doorbell. -/
def overtaken : List Action :=
  firstPhase 0 ++ firstPhase 1 ++ reduce 1 ++ secondPhase 1 ++ [.land 1 0 0, .land 1 0 0] ++
    List.replicate 9 (.act 0 .poll) ++ reduce 0 ++
    [.act 0 (.see 1 0), .act 0 .advance, .act 0 .launch, .act 0 .writeOpWord, .act 0 .ring] ++
    List.replicate 8 (.act 0 .poll) ++ [.act 0 (.postData ⟨1, 0, 1, 1, 0⟩ 1)]

/-- A step whose doorbell read finds no second phase due. -/
def settledAct (σ : ℕ → Rank) : Action → Bool
  | .act r .poll =>
    match (σ r).host.thread with
    | .scan k none => k < maxPhases || sameWord (σ r).device.doorbell (σ r).host.lastSeq ||
      !due (σ r).device (σ r).host 1
    | _ => true
  | _ => true

theorem settled_of_settledAct (σ : ℕ → Rank) (a : Action) (h : settledAct σ a = true) : Settled σ a := by
  rintro r k rfl hth hk hword
  simp only [settledAct, hth, Bool.or_eq_true, decide_eq_true_eq, hword, Bool.false_eq_true, or_false,
    Bool.not_eq_true'] at h
  rcases h with h | h
  · omega
  · exact h

/-- Both phases of the first op in order on the queue pair of rank 0. -/
theorem queue_pair_order_twoshot : ∃ σ, Reachable (step twoshots) Settled initial σ ∧
    (wire (σ 0).host 1 0).length = 4 ∧ QueueOrder twoshots 0 (σ 0).host := by
  obtain ⟨σ, hs, hp⟩ := Reachable.exists_of_checked_runs settledAct settled_of_settledAct (step twoshots) initial
    orderly (fun σ => decide ((wire (σ 0).host 1 0).length = 4)) (by decide +kernel)
  exact ⟨σ, hs, of_decide_eq_true hp, queue_pair_order fresh_twoshots (by simp [twoshots]) hs (by decide)⟩

/-- A thread that looked too early writes the second op's chunk before the reduced
chunk of the first. -/
theorem queue_pair_overtaken :
    ∃ σ, Reachable (step twoshots) Unrestricted initial σ ∧ ¬QueueOrder twoshots 0 (σ 0).host := by
  obtain ⟨σ, hs, hp⟩ := Reachable.exists_of_runs (step twoshots) initial overtaken
    (fun σ => decide (wire (σ 0).host 1 0 =
      [.data 1 0 1 1, .flag 1 0 (flagLine twoRanks 0 0 1 0)] ++ [.data 2 0 1 1])) (by decide +kernel)
  refine ⟨σ, hs, fun horder => ?_⟩
  have hflag := ((horder 1 0 _ _ _ (of_decide_eq_true hp)).2 1 le_rfl (by decide) 1 (by decide) (by decide)).1
  simp at hflag

end SparkRing.ArenaOrder
