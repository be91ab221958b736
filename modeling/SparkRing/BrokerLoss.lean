import SparkRing.BrokerGroup

/-!
# Losing a rank

An iteration that finds a rank's connection ended, ahead of its answer or malformed drops every
rank's. One for which the poll reports an error is dropped alone, so the other ranks of the group
keep waiting unless they are lost in the same iteration.
-/

namespace SparkRing.BootstrapBroker

open TransitionSystem (Reachable Unrestricted)
open WireWords (Bytes put32)

/-- The poll of an iteration of a complete group that reports an error of a connection reports one of
every connection, or another one is found broken. -/
def Together (r : Root) (e : Inputs) : Prop :=
  r.ready = true → e.stopped = false → ∀ listen events, e.poll = .events false listen events → (∃ i, r.Fails events i) →
    (∀ i, r.peers i ≠ none → r.Fails events i) ∨ ∃ i, r.Breaks events i

variable {r : Root} {e : Inputs} (id : Bytes) (deadline : ℤ)

namespace Root

/-- The invariant holds, and under a condition all ranks are held or none. -/
def Kept (r : Root) (condition : Prop) : Prop := r.Inv ∧ (condition → r.ready = true → r.Whole)

variable {condition : Prop}

/-- A loop that is left drops every rank. -/
theorem Inv.done (h : r.Inv) : r.done.Kept condition := by
  obtain ⟨hsize, hready, -⟩ := foldl_dropPeer (if r.ready then none else some .timeout) (List.range maxPending) r
  refine ⟨⟨done_sound h.sound, fun _ i => by rw [done_ranks h.sound]; exact nofun, fun hdone => ?_⟩, fun _ _ => Or.inr ?_⟩
  · change (r.dropAll _).nranks ≠ 0
    rw [dropAll, hsize]
    exact h.nonempty (hready.symm.trans hdone)
  rintro k ⟨i, hi⟩
  rw [done_ranks h.sound] at hi
  cases hi

/-- A round that ends leaves every connection its rank. -/
theorem finishRound_spec (allocated : Bool) (lost : ℕ → Option ℕ) :
    (r.finishRound allocated lost).1.ranks = r.ranks ∧ (r.finishRound allocated lost).1.nranks = r.nranks ∧
      (r.finishRound allocated lost).1.joined = r.joined ∧ (r.finishRound allocated lost).1.ready = r.ready := by
  unfold finishRound
  split_ifs
  · exact ⟨rfl, rfl, rfl, rfl⟩
  · exact ⟨rfl, rfl, rfl, rfl⟩
  refine ⟨?_, rfl, rfl, rfl⟩
  funext i
  unfold ranks
  dsimp only
  cases r.peers i with
  | none => rfl
  | some =>
    rw [Option.map_some, Option.map_some, Option.map_some]
    split_ifs <;> rfl

/-- All or none are held of the ranks that were. -/
theorem Whole.of_ranks {r' : Root} (h : r.Whole) (hnranks : r'.nranks = r.nranks) (hranks : r'.ranks = r.ranks) : r'.Whole := by
  unfold Whole Held
  rw [hnranks, hranks]
  exact h

/-- What follows the events of a complete group. -/
theorem Inv.settle (h : r.Inv) (hready : r.ready = true) {broken : Bool} (hwhole : condition → broken = false → r.Whole) (e : Inputs) :
    (r.settle broken e).Kept condition := by
  unfold Root.settle
  by_cases hbroken : broken = true
  · rw [if_pos hbroken]
    exact h.done
  obtain ⟨hranks, hnranks, hjoined, hsame⟩ := finishRound_spec e.allocated e.lost
  have hround : (r.finishRound e.allocated e.lost).1.Inv := by
    refine ⟨h.sound.of_ranks hnranks hjoined hranks, fun _ i => ?_, fun _ => ?_⟩
    · rw [hranks]
      exact h.ranked hready i
    · rw [hnranks]
      exact h.nonempty hready
  dsimp only
  split_ifs
  · exact ⟨hround, fun hcondition _ => (hwhole hcondition (Bool.eq_false_iff.mpr hbroken)).of_ranks hnranks hranks⟩
  · exact hround.done

end Root

/-- Events keep the slots of a complete group sound. -/
theorem sound_handle (events : ℕ → Option Event) {s : Root × Bool} (h : s.1.Sound ∧ s.1.ready = true) (i : ℕ) :
    (handle events s i).1.Sound ∧ (handle events s i).1.ready = true := by
  have hdrop : ∀ result, (s.1.dropPeer i result).Sound ∧ (s.1.dropPeer i result).ready = true := fun result =>
    ⟨h.1.dropPeer i result, (Root.dropPeer_spec s.1 i result).2.2.2.1.trans h.2⟩
  unfold handle
  split
  · next p event hp hevent =>
    split_ifs with hfailed hready
    · exact hdrop none
    · split
      · exact h
      · next p' hread => exact ⟨h.1.of_ranks rfl rfl (Root.ranks_set hp (readFrame_rank hread)), h.2⟩
    unfold Root.handleHello
    rw [if_pos (Or.inl h.2)]
    split
    · exact h
    · exact hdrop none
    · exact hdrop none
    · exact hdrop (some .usage)
  · exact h

namespace Root

/-- The slots that a poll asks for are those with a connection. -/
theorem nodup_slots : r.slots.Nodup := List.nodup_range.filter _

theorem Sound.mem_slots (h : r.Sound) {i : ℕ} (hi : r.peers i ≠ none) : i ∈ r.slots := by
  refine Root.mem_slots.mpr ⟨h.slot_lt i (fun hnone => hi ?_), Option.isSome_iff_ne_none.mpr hi⟩
  rwa [ranks, Option.map_eq_none_iff] at hnone

/-- An iteration keeps all ranks or none where errors come together. -/
theorem Inv.iterate (h : r.Inv) (e : Inputs) : (r.iterate e).Kept ((r.ready = true → r.Whole) ∧ Together r e) := by
  unfold Root.iterate
  by_cases hleft : e.stopped = true ∨ r.ready = false ∧ r.expired e.first = true ∨ r.ready = true ∧ r.joined = 0 ∨
      r.ready = false ∧ r.expired e.second = true
  · rw [if_pos hleft]
    exact h.done
  rw [if_neg hleft]
  dsimp only
  by_cases hready : r.ready = true
  · rw [if_pos hready]
    split
    · exact ⟨h, fun hcondition => hcondition.1⟩
    · exact h.done
    next wake listen events hpoll =>
    by_cases hwake : wake = true
    · rw [if_pos hwake]
      exact h.done
    rw [if_neg hwake, if_pos hready]
    rw [Bool.not_eq_true] at hwake
    subst hwake
    obtain ⟨hend, hsize, hall, hbroken⟩ := foldl_handle_ready events r.slots r.nodup_slots (r, false) hready (h.ranked hready)
    have hsound : (r.slots.foldl (handle events) (r, false)).1.Sound :=
      (List.foldlRecOn (motive := fun s : Root × Bool => s.1.Sound ∧ s.1.ready = true) r.slots _ ⟨h.sound, hready⟩
        fun s hs i _ => sound_handle events hs i).1
    have hinv : (r.slots.foldl (handle events) (r, false)).1.Inv := by
      refine ⟨hsound, fun _ i => ?_, fun _ => ?_⟩
      · rw [hall]
        split_ifs
        · exact nofun
        · exact h.ranked hready i
      · rw [hsize]
        exact h.nonempty hready
    refine hinv.settle hend (fun ⟨hwhole, hgood⟩ hkept => ?_) e
    rw [not_or, Bool.not_eq_true] at hleft
    -- No connection was found broken, so those with an error are all of them or none.
    have hnone : ¬∃ i, r.Breaks events i := by
      rintro ⟨i, p, event, hp, hrest⟩
      have hin := h.sound.mem_slots (i := i) (by rw [hp]; exact nofun)
      rw [hbroken.mpr (Or.inr ⟨i, hin, p, event, hp, hrest⟩)] at hkept
      cases hkept
    by_cases hfails : ∃ i, r.Fails events i
    · rcases hgood hready hleft.1 listen events hpoll hfails with hevery | hbreak
      · refine Or.inr ?_
        rintro k ⟨i, hi⟩
        rw [hall] at hi
        split_ifs at hi with hfail
        have hpeer : r.peers i ≠ none := by
          intro hnone'
          rw [ranks, hnone'] at hi
          cases hi
        exact hfail ⟨h.sound.mem_slots hpeer, hevery i hpeer⟩
      · exact absurd hbreak hnone
    · refine (hwhole hready).of_ranks hsize (funext fun i => ?_)
      rw [hall, if_neg (fun hfail => hfails ⟨i, hfail.2⟩)]
  · have hopen : r.Open := ⟨h.sound, Bool.eq_false_iff.mpr hready⟩
    have hslow := hopen.dropSlow e.now
    rw [if_neg hready]
    split
    · exact ⟨hslow.inv, fun _ hslowReady => absurd hslowReady (by rw [hslow.2]; exact Bool.false_ne_true)⟩
    · exact hslow.inv.done
    next wake listen events _ =>
    split_ifs
    · exact hslow.inv.done
    obtain ⟨hhandled, hbroken⟩ := open_foldl_handle events r.slots (hslow.acceptConnections (listen.getD []))
    unfold Root.settle
    rw [hbroken, if_neg Bool.false_ne_true, if_neg (by rw [hhandled.2]; exact Bool.false_ne_true)]
    exact ⟨hhandled.complete.1, fun _ => hhandled.complete.2⟩

/-- A root whose thread starts holds no connection. -/
theorem Open.start : (Root.start id deadline).Open := by
  refine ⟨⟨fun i hi => absurd rfl hi, fun _ _ hi => ?_, fun _ _ _ hi => ?_, ?_⟩, rfl⟩
  · cases hi
  · cases hi
  · rfl

end Root

/-- The slots stay sound in every run. -/
theorem inv_of_reachable (h : Reachable step Unrestricted (Root.start id deadline) r) : r.Inv := by
  refine Reachable.invariant Root.Inv h (Root.Open.start id deadline).inv fun r e r' _ hr _ hstep => ?_
  unfold step at hstep
  split_ifs at hstep
  cases hstep
  exact (hr.iterate e).1

/-- A run whose polls report errors of a complete group's connections together holds, at the start of
every iteration after the group became complete, every rank's connection or none. -/
theorem whole_of_together (id : Bytes) (deadline : ℤ) (r : Root) (h : Reachable step Together (Root.start id deadline) r) :
    r.ready = true → r.Whole := by
  refine Reachable.invariant (fun r => r.ready = true → r.Whole) h (fun hready => ?_) fun r e r' hreached hwhole hgood hstep => ?_
  · cases hready
  have hinv := inv_of_reachable id deadline (hreached.mono fun _ _ _ => trivial)
  unfold step at hstep
  split_ifs at hstep
  cases hstep
  exact (hinv.iterate e).2 ⟨hwhole, hgood⟩

/-- An iteration whose poll reports events. -/
def quiet (listen : Option (List Accept)) (events : ℕ → Option Event) : Inputs := ⟨false, 0, 0, 0, .events false listen events, true, fun _ => none⟩

/-- A rank of two sends its hello. -/
def greets (id : Bytes) (rank : ℕ) : Event :=
  match id ++ put32 2 ++ put32 rank with
  | [] => ⟨false, .again, .again, true⟩
  | first :: rest => ⟨false, .bytes first rest, .again, true⟩

def someId : Bytes := List.replicate 128 7

/-- Two ranks join. -/
def pairs : List Inputs := [quiet (some [.connection 5 0, .connection 6 0]) fun _ => none, quiet none fun i => some (greets someId i)]

/-- A slot is polled without an error. -/
def unfailing (r : Root) (e : Inputs) : Bool :=
  match e.poll with
  | .events _ _ events => r.slots.all fun i => (events i).all fun event => !event.failed
  | _ => true

theorem together_of_unfailing (r : Root) (e : Inputs) (h : Reachable step Together (Root.start someId 10000) r) (hcheck : unfailing r e = true) :
    Together r e := by
  rintro _ _ listen events hpoll ⟨i, p, event, hp, hevent, hfailed⟩
  have hin := (inv_of_reachable someId 10000 (h.mono fun _ _ _ => trivial)).sound.mem_slots (i := i) (by rw [hp]; exact nofun)
  rw [unfailing, hpoll, List.all_eq_true] at hcheck
  have hgood := hcheck i hin
  rw [hevent, Option.all_some, hfailed] at hgood
  cases hgood

/-- A group of two is complete with both ranks, and still whole when a rank has left. -/
theorem pair_stays_whole : ∃ r, Reachable step Together (Root.start someId 10000) r ∧ (r.ready = true ∧ r.joined = 0) ∧ r.Whole := by
  obtain ⟨r, hr, hend⟩ := Reachable.exists_of_guarded_runs unfailing step (Root.start someId 10000) together_of_unfailing
    (pairs ++ [quiet none fun i => if i = 1 then some ⟨false, .closed, .again, true⟩ else none])
    (fun r => r.ready && decide (r.joined = 0)) (by decide +kernel)
  rw [Bool.and_eq_true, decide_eq_true_eq] at hend
  exact ⟨r, hr, hend, whole_of_together someId 10000 r hr hend.1⟩

/-- A rank whose connection is reset leaves the other one behind. -/
theorem reset_leaves_other : ¬∀ (id : Bytes) (deadline : ℤ) (r : Root), Reachable step Unrestricted (Root.start id deadline) r →
    r.ready = true → r.Whole := by
  intro h
  obtain ⟨r, hr, hend⟩ := Reachable.exists_of_runs step (Root.start someId 10000)
    (pairs ++ [quiet none fun i => if i = 1 then some ⟨true, .error, .again, true⟩ else none])
    (fun r => r.ready && decide (1 < r.nranks) && decide (r.ranks 0 = some (some 0)) && r.slots == [0]) (by decide +kernel)
  rw [Bool.and_eq_true, Bool.and_eq_true, Bool.and_eq_true, decide_eq_true_eq, decide_eq_true_eq, beq_iff_eq] at hend
  obtain ⟨⟨⟨hready, hsize⟩, hzero⟩, hslots⟩ := hend
  rcases h someId 10000 r hr hready with hall | hnone
  · obtain ⟨i, hi⟩ := hall 1 hsize
    have hin := (inv_of_reachable someId 10000 hr).sound.mem_slots (i := i) (fun hfree => by rw [Root.ranks, hfree] at hi; cases hi)
    rw [hslots, List.mem_singleton] at hin
    rw [hin, hzero] at hi
    cases hi
  · exact hnone 0 ⟨0, hzero⟩

open Finset (mem_filter mem_range card_image_of_injOn card_le_card)

variable {id deadline} in
/-- In every run of the root a rank of the group has at most one connection, and the count of joined ranks is
never more than the group's size, and is that size exactly when every rank is held. -/
theorem ranks_join_once (h : Reachable step Unrestricted (Root.start id deadline) r) :
    (∀ i j k, r.ranks i = some (some k) → r.ranks j = some (some k) → i = j) ∧
      r.joined ≤ r.nranks ∧ (r.joined = r.nranks ↔ ∀ k < r.nranks, r.Held k) := by
  have hsound := (inv_of_reachable id deadline h).sound
  -- the rank of a joined slot
  have hrank : ∀ i ∈ (Finset.range maxPending).filter (fun i => joinedAt r.ranks i = true),
      r.ranks i = some (some ((r.ranks i).join.getD 0)) := by
    intro i hi
    obtain ⟨k, hk⟩ := joinedAt_iff.mp (mem_filter.mp hi).2
    rw [hk]
    rfl
  have hcard := card_image_of_injOn (f := fun i => (r.ranks i).join.getD 0) fun i hi j hj hij =>
    hsound.distinct i j _ (hrank i hi) ((hrank j hj).trans (congrArg (fun k => some (some k)) hij.symm))
  rw [← hsound.joined_eq] at hcard
  have hle : r.joined ≤ r.nranks := by
    rw [← hcard, ← Finset.card_range r.nranks]
    exact card_le_card (Finset.image_subset_iff.mpr fun i hi => mem_range.mpr (hsound.rank_lt i _ (hrank i hi)))
  refine ⟨fun i j k => hsound.distinct i j k, hle, fun hjoined k hk => ?_, fun hheld => le_antisymm hle ?_⟩
  · unfold Root.Sound at hsound
    rw [hjoined] at hsound
    exact hsound.all_held hk
  · rw [← hcard, ← Finset.card_range r.nranks]
    refine card_le_card fun k hk => ?_
    obtain ⟨i, hi⟩ := hheld k (mem_range.mp hk)
    exact Finset.mem_image.mpr ⟨i, mem_filter.mpr ⟨mem_range.mpr (hsound.slot_lt i (by rw [hi]; exact Option.some_ne_none _)),
      joinedAt_iff.mpr ⟨k, hi⟩⟩, by rw [hi]; rfl⟩

/-- Two ranks join: the group is complete. -/
theorem ranks_join_once_pair : ∃ r, Reachable step Unrestricted (Root.start someId 10000) r ∧ ∀ k < r.nranks, r.Held k := by
  obtain ⟨r, hr, hjoined⟩ := Reachable.exists_of_runs step (Root.start someId 10000) pairs (fun r => decide (r.joined = r.nranks)) (by decide +kernel)
  exact ⟨r, hr, (ranks_join_once hr).2.2.mp (of_decide_eq_true hjoined)⟩

end SparkRing.BootstrapBroker
