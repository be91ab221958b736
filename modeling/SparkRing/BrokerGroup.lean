import SparkRing.BrokerRanks

/-!
# A complete group stays whole

Once its group is complete, a broker holds every rank's connection or none at the start of
every iteration, as long as the poll of an iteration reports an error of all of them, or of
none, or some other connection is lost in it as well.
-/

namespace SparkRing.BootstrapBroker

open WireWords (Bytes get32)
open Function
open List (foldl_cons mem_cons mem_range not_mem_nil)
open Option (map_some some.injEq)

namespace Root

variable {r : Root} {i j k : ℕ} {e : Inputs} {events : ℕ → Option Event} {p p' : Peer}

/-- The rank of the connection in a slot. -/
def ranks (r : Root) (i : ℕ) : Option (Option ℕ) := (r.peers i).map Peer.rank

/-- A rank's connection is held. -/
def Held (r : Root) (k : ℕ) : Prop := ∃ i, r.ranks i = some (some k)

/-- Every rank's connection is held, or none is. -/
def Whole (r : Root) : Prop := (∀ k < r.nranks, r.Held k) ∨ ∀ k, ¬r.Held k

/-- The slots of a root hold distinct ranks. -/
def Sound (r : Root) : Prop := BootstrapBroker.Sound r.nranks r.joined r.ranks

/-- Only what holds a connection's rank and the group's counts changed. -/
theorem Sound.of_ranks {r' : Root} (h : r.Sound) (hnranks : r'.nranks = r.nranks) (hjoined : r'.joined = r.joined) (hranks : r'.ranks = r.ranks) :
    r'.Sound := by
  unfold Sound
  rw [hnranks, hjoined, hranks]
  exact h

/-- Slots of the ranks after one slot was set. -/
theorem ranks_update (p : Option Peer) :
    (fun j => (update r.peers i p j).map Peer.rank) = update r.ranks i (p.map Peer.rank) := by
  funext j
  by_cases hji : j = i
  · rw [hji, update_self, update_self]
  · rw [update_of_ne hji, update_of_ne hji]
    rfl

/-- A root that sets a slot to a connection of the same rank. -/
theorem ranks_set (hp : r.peers i = some p) (hrank : p'.rank = p.rank) :
    ({ r with peers := update r.peers i (some p') } : Root).ranks = r.ranks := by
  change (fun j => (update r.peers i (some p') j).map Peer.rank) = r.ranks
  rw [ranks_update, map_some, hrank, update_eq_self_iff, ranks, hp]
  rfl

variable {result : Option Result}

theorem dropPeer_spec (r : Root) (i : ℕ) (result : Option Result) :
    (r.dropPeer i result).ranks = update r.ranks i none ∧ (r.dropPeer i result).nranks = r.nranks ∧
      (r.dropPeer i result).joined = (if joinedAt r.ranks i = true then r.joined - 1 else r.joined) ∧
      (r.dropPeer i result).ready = r.ready ∧ (r.dropPeer i result).round = r.round ∧
      (r.dropPeer i result).peers = update r.peers i none := by
  unfold dropPeer
  cases hp : r.peers i with
  | none =>
    have hnone : r.ranks i = none := by rw [ranks, hp]; rfl
    refine ⟨?_, rfl, ?_, rfl, rfl, ?_⟩
    · rw [eq_comm, update_eq_self_iff, hnone]
    · rw [joinedAt, hnone]
      rfl
    · rw [eq_comm, update_eq_self_iff, hp]
  | some p =>
    have hjoined : joinedAt r.ranks i = p.rank.isSome := by rw [joinedAt, ranks, hp]; rfl
    rw [hjoined]
    cases result with
    | none | some => exact ⟨ranks_update none, rfl, rfl, rfl, rfl, rfl⟩

theorem Sound.dropPeer (h : r.Sound) (i : ℕ) (result : Option Result) : (r.dropPeer i result).Sound := by
  obtain ⟨hranks, hnranks, hjoined, -⟩ := dropPeer_spec r i result
  unfold Sound
  rw [hranks, hnranks, hjoined]
  exact h.vacate i

/-- Every connection of some slots is dropped. -/
theorem foldl_dropPeer (result : Option Result) (slots : List ℕ) (r : Root) :
    (slots.foldl (fun r i => r.dropPeer i result) r).nranks = r.nranks ∧
      (slots.foldl (fun r i => r.dropPeer i result) r).ready = r.ready ∧ ∀ i, (slots.foldl (fun r i => r.dropPeer i result) r).ranks i = if i ∈ slots then none else r.ranks i := by
  induction slots generalizing r with
  | nil => exact ⟨rfl, rfl, fun i => (if_neg not_mem_nil).symm⟩
  | cons slot slots ih =>
    obtain ⟨hranks, hnranks, -, hsame, -⟩ := dropPeer_spec r slot result
    obtain ⟨hsize, hready, hall⟩ := ih (r.dropPeer slot result)
    refine ⟨hsize.trans hnranks, hready.trans hsame, fun i => ?_⟩
    rw [foldl_cons, hall, hranks]
    by_cases hi : i = slot
    · simp [hi]
    · simp [hi]

/-- A loop that is left holds no connection. -/
theorem done_ranks (h : r.Sound) (i : ℕ) : r.done.ranks i = none := by
  change (r.dropAll _).ranks i = none
  rw [dropAll, (foldl_dropPeer _ _ r).2.2]
  by_cases hi : i < maxPending
  · rw [if_pos (mem_range.mpr hi)]
  rw [if_neg (fun hmem => hi (mem_range.mp hmem))]
  by_contra hne
  exact hi (h.slot_lt i hne)

theorem done_sound (h : r.Sound) : r.done.Sound := by
  have hdrop : (r.dropAll (if r.ready then none else some .timeout)).Sound := by
    refine List.foldlRecOn (motive := Sound) (List.range maxPending) _ h fun r hr i _ => hr.dropPeer i _
  exact hdrop.of_ranks rfl rfl rfl

/-- A root whose group is not complete. -/
def Open (r : Root) : Prop := r.Sound ∧ r.ready = false

theorem Open.dropPeer (h : r.Open) (i : ℕ) (result : Option Result) : (r.dropPeer i result).Open :=
  ⟨h.1.dropPeer i result, (dropPeer_spec r i result).2.2.2.1.trans h.2⟩

theorem Open.dropSlow (h : r.Open) (now : ℤ) : (r.dropSlow now).Open := by
  refine List.foldlRecOn (motive := Open) (List.range maxPending) _ h fun r hr i _ => ?_
  split_ifs
  · exact hr.dropPeer i _
  · exact hr

theorem Open.acceptOne (h : r.Open) (accept : Accept) : (r.acceptOne accept).Open := by
  cases accept with
  | interrupted | unusable => exact h
  | connection fd accepted =>
    unfold Root.acceptOne
    cases hslot : (List.range maxPending).find? fun i => (r.peers i).isNone with
    | none => exact ⟨h.1.of_ranks rfl rfl rfl, h.2⟩
    | some slot =>
      have hfree : r.peers slot = none := by
        have hnone := List.find?_some hslot
        exact Option.isNone_iff_eq_none.mp hnone
      refine ⟨?_, h.2⟩
      change BootstrapBroker.Sound r.nranks r.joined (fun j => (update r.peers slot (some (Peer.fresh fd accepted)) j).map Peer.rank)
      rw [ranks_update]
      exact BootstrapBroker.Sound.accept h.1 (mem_range.mp (List.mem_of_find?_eq_some hslot)) (by rw [ranks, hfree]; rfl)

theorem Open.acceptConnections (h : r.Open) (accepts : List Accept) : (r.acceptConnections accepts).Open :=
  List.foldlRecOn (motive := Open) _ _ h fun _ hr accept _ => hr.acceptOne accept

theorem mem_slots : i ∈ r.slots ↔ i < maxPending ∧ (r.peers i).isSome = true := by
  rw [slots, List.mem_filter, mem_range]

theorem Open.acceptHello (h : r.Open) (hi : r.peers i = some p) (hrank : p.rank = none) : (r.acceptHello i p).1.Open := by
  unfold Root.acceptHello
  dsimp only
  split_ifs with hid hsize hgroup hclaimed
  · exact h
  · exact h
  · exact h
  · exact h
  refine ⟨?_, h.2⟩
  change BootstrapBroker.Sound (get32 (p.hello.drop idSize)) (r.joined + 1) (fun j => (update r.peers i _ j).map Peer.rank)
  rw [ranks_update]
  refine BootstrapBroker.Sound.join h.1 (by rw [ranks, hi, ← hrank]; rfl) (by omega) (fun j hj => hclaimed ?_) (by omega)
  obtain ⟨q, hq, hqrank⟩ := Option.map_eq_some_iff.mp hj
  rw [List.any_eq_true]
  refine ⟨j, mem_slots.mpr ⟨h.1.slot_lt j (by rw [hj]; exact nofun), by rw [hq]; rfl⟩, ?_⟩
  rw [hq, Option.any_some, decide_eq_true_eq, hqrank]

theorem Open.helloRead {read : Peer} (h : r.Open) (hi : r.peers i = some p) (hrank : read.rank = p.rank) (hnone : p.rank = none) :
    (r.helloRead i read).Open := by
  have hset : ({ r with peers := update r.peers i (some read) } : Root).Open := ⟨h.1.of_ranks rfl rfl (ranks_set hi hrank), h.2⟩
  unfold Root.helloRead
  dsimp only
  generalize hroot : ({ r with peers := update r.peers i (some read) } : Root) = r' at hset ⊢
  have hself : r'.peers i = some read := by rw [← hroot]; exact update_self _ _ _
  split
  · split_ifs with hok
    · exact hset.acceptHello hself (hrank.trans hnone)
    · exact hset.dropPeer i _
  · exact hset

theorem Open.handleHello (h : r.Open) (hi : r.peers i = some p) (event : Event) : (r.handleHello i p event).Open := by
  unfold Root.handleHello
  split_ifs with hother
  · split
    · exact h
    · exact h.dropPeer i _
    · exact h.dropPeer i _
    · exact h.dropPeer i _
  rw [not_or, Bool.not_eq_true, Bool.not_eq_true, Option.isSome_eq_false_iff, Option.isNone_iff_eq_none] at hother
  split
  · exact h.dropPeer i _
  · exact h.dropPeer i _
  · exact h
  · exact h.helloRead hi rfl hother.2

end Root

/-- An event of a connection before the group is complete. -/
theorem open_handle {s : Root × Bool} (h : s.1.Open ∧ s.2 = false) : (handle events s i).1.Open ∧ (handle events s i).2 = false := by
  unfold handle
  split
  · next p event hp hevent =>
    split_ifs with hfailed hready
    · exact ⟨h.1.dropPeer i _, h.2⟩
    · exact absurd hready.1 (by rw [h.1.2]; exact Bool.false_ne_true)
    · exact ⟨h.1.handleHello hp event, h.2⟩
  · exact h

theorem open_foldl_handle (events : ℕ → Option Event) (slots : List ℕ) {r : Root} (h : r.Open) :
    (slots.foldl (handle events) (r, false)).1.Open ∧ (slots.foldl (handle events) (r, false)).2 = false :=
  List.foldlRecOn (motive := fun s : Root × Bool => s.1.Open ∧ s.2 = false) slots _ ⟨h, rfl⟩ fun _ hs i _ => open_handle hs

namespace Root

variable {r : Root} {i j k : ℕ}

/-- A held connection has a rank. -/
def Ranked (r : Root) : Prop := ∀ i, r.ranks i ≠ some none

theorem Sound.welcome (h : r.Sound) (i : ℕ) : (r.welcome i).Sound := by
  unfold Root.welcome
  split
  · exact h
  split_ifs
  · exact h.of_ranks rfl rfl rfl
  · exact h.dropPeer i _

/-- Only connections without a rank are dropped when the group becomes complete. -/
theorem foldl_welcome (slots : List ℕ) (r : Root) :
    (slots.foldl Root.welcome r).nranks = r.nranks ∧ (slots.foldl Root.welcome r).ready = r.ready ∧
      ∀ i, (slots.foldl Root.welcome r).ranks i = if i ∈ slots ∧ r.ranks i = some none then none else r.ranks i := by
  induction slots generalizing r with
  | nil => exact ⟨rfl, rfl, fun i => (if_neg (fun h => not_mem_nil h.1)).symm⟩
  | cons slot slots ih =>
    obtain ⟨hsize, hready, hall⟩ := ih (r.welcome slot)
    have hone : (r.welcome slot).nranks = r.nranks ∧ (r.welcome slot).ready = r.ready ∧
        ∀ i, (r.welcome slot).ranks i = if i = slot ∧ r.ranks i = some none then none else r.ranks i := by
      unfold Root.welcome
      cases hp : r.peers slot with
      | none =>
        refine ⟨rfl, rfl, fun i => (if_neg ?_).symm⟩
        rintro ⟨rfl, hi⟩
        rw [ranks, hp] at hi
        cases hi
      | some p =>
        by_cases hrank : p.rank.isSome = true
        · dsimp only
          rw [if_pos hrank]
          refine ⟨rfl, rfl, fun i => (if_neg ?_).symm⟩
          rintro ⟨rfl, hi⟩
          rw [ranks, hp, map_some, some.injEq] at hi
          rw [hi] at hrank
          cases hrank
        dsimp only
        rw [if_neg hrank]
        obtain ⟨hranks, hnranks, -, hsame, -⟩ := dropPeer_spec r slot (some .remote)
        refine ⟨hnranks, hsame, fun i => ?_⟩
        rw [hranks]
        by_cases hi : i = slot
        · have hnone : r.ranks slot = some none := by
            rw [Option.not_isSome_iff_eq_none] at hrank
            rw [ranks, hp, map_some, hrank]
          rw [hi, update_self, if_pos ⟨rfl, hnone⟩]
        · rw [update_of_ne hi, if_neg (fun h => hi h.1)]
    refine ⟨hsize.trans hone.1, hready.trans hone.2.1, fun i => ?_⟩
    rw [foldl_cons, hall, hone.2.2]
    by_cases hi : i = slot
    · subst hi
      by_cases hnone : r.ranks i = some none <;> simp [hnone]
    · simp [hi]

/-- What holds at the start of every iteration. -/
structure Inv (r : Root) : Prop where
  sound : r.Sound
  ranked : r.ready = true → r.Ranked
  nonempty : r.ready = true → r.nranks ≠ 0

theorem Open.inv (h : r.Open) : r.Inv where
  sound := h.1
  ranked hready := absurd hready (by rw [h.2]; exact Bool.false_ne_true)
  nonempty hready := absurd hready (by rw [h.2]; exact Bool.false_ne_true)

/-- A group that becomes complete has every rank's connection. -/
theorem Open.complete (h : r.Open) : r.complete.Inv ∧ (r.complete.ready = true → r.complete.Whole) := by
  unfold Root.complete
  split_ifs with hfull
  · obtain ⟨hsize, _, hall⟩ := foldl_welcome (List.range maxPending) { r with ready := true }
    have hsound : ({ r with ready := true } : Root).Sound := h.1.of_ranks rfl rfl rfl
    have hheld : ∀ k < r.nranks, ∃ i, r.ranks i = some (some k) := by
      intro k hk
      have hranks : BootstrapBroker.Sound r.nranks r.joined r.ranks := h.1
      rw [hfull.2.2] at hranks
      exact hranks.all_held hk
    refine ⟨⟨?_, fun _ i hi => ?_, fun _ => ?_⟩, fun _ => Or.inl fun k hk => ?_⟩
    · exact List.foldlRecOn (motive := Sound) _ _ hsound fun r hr i _ => hr.welcome i
    · rw [hall] at hi
      split at hi
      case isTrue => cases hi
      case isFalse hslot => exact hslot ⟨mem_range.mpr (hsound.slot_lt i (by rw [hi]; exact nofun)), hi⟩
    · rw [hsize]
      exact hfull.2.1
    rw [hsize] at hk
    obtain ⟨i, hi⟩ := hheld k hk
    refine ⟨i, ?_⟩
    rw [hall, if_neg]
    · exact hi
    · rintro ⟨_, hnone⟩
      exact absurd (hi.symm.trans hnone) (by simp)
  · exact ⟨h.inv, fun hready => absurd hready (by rw [h.2]; exact Bool.false_ne_true)⟩

/-- The poll reports an error of a held connection. -/
def Fails (r : Root) (events : ℕ → Option Event) (i : ℕ) : Prop := ∃ p e, r.peers i = some p ∧ events i = some e ∧ e.failed = true

/-- A held connection without an error is found ended, ahead of its answer or malformed. -/
def Breaks (r : Root) (events : ℕ → Option Event) (i : ℕ) : Prop :=
  ∃ p e, r.peers i = some p ∧ events i = some e ∧ e.failed = false ∧ readFrame r.round p e = none

end Root

/-- A frame that is read on stays its rank's. -/
theorem readFrame_rank {round : ℕ} {e : Event} (h : readFrame round p e = some p') : p'.rank = p.rank := by
  have hpayload : ∀ {q q' : Peer} {received : Received}, readPayload q received = some q' → q'.rank = q.rank := by
    intro q q' received hread
    unfold readPayload at hread
    split at hread
    · split at hread
      · cases hread
      · cases hread
      · cases hread
        rfl
      · cases hread
        rfl
    · cases hread
      rfl
  unfold readFrame at h
  split at h
  · split at h
    · cases h
      rfl
    · cases h
  split at h
  · split at h
    · cases h
    · cases h
    · cases h
      rfl
    dsimp only at h
    split_ifs at h
    · cases h
      rfl
    · exact (hpayload h).trans rfl
  · exact hpayload h

open Classical in
/-- An event of a connection of the complete group. -/
theorem handle_ready (s : Root × Bool) (hready : s.1.ready = true) (hranked : s.1.Ranked) :
    (handle events s i).1.ready = true ∧ (handle events s i).1.round = s.1.round ∧ (handle events s i).1.nranks = s.1.nranks ∧
      (handle events s i).1.ranks = (if s.1.Fails events i then update s.1.ranks i none else s.1.ranks) ∧
      (∀ j ≠ i, (handle events s i).1.peers j = s.1.peers j) ∧ ((handle events s i).2 = true ↔ s.2 = true ∨ s.1.Breaks events i) := by
  obtain ⟨r, broken⟩ := s
  unfold handle
  cases hp : r.peers i with
  | none =>
    have hnot : ¬r.Fails events i := by
      rintro ⟨p, e, hpi, -⟩
      rw [hp] at hpi
      cases hpi
    rw [if_neg hnot]
    refine ⟨hready, rfl, rfl, rfl, fun _ _ => rfl, ⟨Or.inl, ?_⟩⟩
    rintro (hbroken | ⟨p, e, hpi, -⟩)
    · exact hbroken
    · rw [hp] at hpi
      cases hpi
  | some p =>
    cases hevent : events i with
    | none =>
      have hnot : ¬r.Fails events i := by
        rintro ⟨p, e, -, he, -⟩
        rw [hevent] at he
        cases he
      rw [if_neg hnot]
      refine ⟨hready, rfl, rfl, rfl, fun _ _ => rfl, ⟨Or.inl, ?_⟩⟩
      rintro (hbroken | ⟨p, e, -, he, -⟩)
      · exact hbroken
      · rw [hevent] at he
        cases he
    | some e =>
      dsimp only
      by_cases hfailed : e.failed = true
      · rw [if_pos hfailed, if_pos ⟨p, e, hp, hevent, hfailed⟩]
        obtain ⟨hranks, hnranks, -, hsame, hround, hpeers⟩ := Root.dropPeer_spec r i none
        refine ⟨hsame.trans hready, hround, hnranks, hranks, fun j hj => ?_, ⟨Or.inl, ?_⟩⟩
        · rw [hpeers, update_of_ne hj]
        rintro (hbroken | ⟨p', e', -, he', hnot, -⟩)
        · exact hbroken
        rw [hevent, some.injEq] at he'
        rw [← he', hfailed] at hnot
        cases hnot
      · have hnot : ¬r.Fails events i := by
          rintro ⟨p', e', -, he', hfailed'⟩
          rw [hevent, some.injEq] at he'
          exact hfailed (he' ▸ hfailed')
        have hrank : r.ready = true ∧ p.rank.isSome = true := by
          refine ⟨hready, ?_⟩
          by_contra hnone
          rw [Option.not_isSome_iff_eq_none] at hnone
          exact hranked i (by rw [Root.ranks, hp, map_some, hnone])
        rw [if_neg hfailed, if_pos hrank, if_neg hnot]
        cases hread : readFrame r.round p e with
        | none =>
          exact ⟨hready, rfl, rfl, rfl, fun _ _ => rfl, iff_of_true rfl (Or.inr ⟨p, e, hp, hevent, Bool.eq_false_iff.mpr hfailed, hread⟩)⟩
        | some =>
          refine ⟨hready, rfl, rfl, Root.ranks_set hp (readFrame_rank hread), fun j hj => update_of_ne hj _ _, ⟨Or.inl, ?_⟩⟩
          rintro (hbroken | ⟨q, e', hq, he', -, hnone⟩)
          · exact hbroken
          rw [hp, some.injEq] at hq
          rw [hevent, some.injEq] at he'
          rw [← hq, ← he', hread] at hnone
          cases hnone

open Classical in
/-- The events of an iteration drop exactly the connections with an error. -/
theorem foldl_handle_ready (events : ℕ → Option Event) (slots : List ℕ) (hnodup : slots.Nodup) (s : Root × Bool) (hready : s.1.ready = true)
    (hranked : s.1.Ranked) : (slots.foldl (handle events) s).1.ready = true ∧ (slots.foldl (handle events) s).1.nranks = s.1.nranks ∧
      (∀ i, (slots.foldl (handle events) s).1.ranks i = if i ∈ slots ∧ s.1.Fails events i then none else s.1.ranks i) ∧
      ((slots.foldl (handle events) s).2 = true ↔ s.2 = true ∨ ∃ i ∈ slots, s.1.Breaks events i) := by
  induction slots generalizing s with
  | nil =>
    refine ⟨hready, rfl, fun i => (if_neg (fun h => not_mem_nil h.1)).symm, ⟨Or.inl, ?_⟩⟩
    rintro (hbroken | ⟨i, hi, -⟩)
    · exact hbroken
    · exact absurd hi not_mem_nil
  | cons slot slots ih =>
    obtain ⟨hnot, hrest⟩ := List.nodup_cons.mp hnodup
    obtain ⟨hready', hround, hnranks, hranks, hpeers, hbroken⟩ := handle_ready s hready hranked
    have hranked' : (handle events s slot).1.Ranked := by
      intro i
      rw [hranks]
      split_ifs
      · by_cases hi : i = slot
        · rw [hi, update_self]
          exact nofun
        · rw [update_of_ne hi]
          exact hranked i
      · exact hranked i
    have hfails : ∀ i ∈ slots, ((handle events s slot).1.Fails events i ↔ s.1.Fails events i) := by
      intro i hi
      unfold Root.Fails
      rw [hpeers i (fun heq => hnot (heq ▸ hi))]
    have hbreaks : ∀ i ∈ slots, ((handle events s slot).1.Breaks events i ↔ s.1.Breaks events i) := by
      intro i hi
      unfold Root.Breaks
      rw [hpeers i (fun heq => hnot (heq ▸ hi)), hround]
    obtain ⟨hend, hsize, hall, hbroken'⟩ := ih hrest (handle events s slot) hready' hranked'
    refine ⟨hend, hsize.trans hnranks, fun i => ?_, ?_⟩
    · rw [foldl_cons, hall, hranks]
      by_cases hi : i = slot
      · subst hi
        by_cases hfail : s.1.Fails events i <;> simp [hnot, hfail]
      by_cases hmem : i ∈ slots
      · simp only [hfails i hmem, hmem, mem_cons, or_true, true_and]
        split_ifs <;> simp [hi]
      · simp only [hmem, hi, mem_cons, or_self, false_and, if_false]
        split_ifs <;> simp [hi]
    · rw [foldl_cons, hbroken', hbroken, or_assoc]
      refine or_congr Iff.rfl ⟨?_, ?_⟩
      · rintro (hslot | ⟨i, hi, hbreak⟩)
        · exact ⟨slot, List.mem_cons_self, hslot⟩
        · exact ⟨i, List.mem_cons_of_mem _ hi, (hbreaks i hi).mp hbreak⟩
      rintro ⟨i, hi, hbreak⟩
      rcases mem_cons.mp hi with rfl | hi
      · exact Or.inl hbreak
      · exact Or.inr ⟨i, hi, (hbreaks i hi).mpr hbreak⟩

end SparkRing.BootstrapBroker
