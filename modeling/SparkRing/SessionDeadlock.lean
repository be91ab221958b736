import SparkRing.LockWaits
import SparkRing.SessionHolders
import SparkRing.TransitionSystem

/-!
# Threads of a session that wait for each other

A reduce-scatter and an all-to-all take the tuning lock and then the session lock; the other
collectives take the session lock and then the tuning lock. As long as no thread takes or asks
for its second lock while another one stands between its own two in the other order, no threads
wait for each other, and some call that has not returned can go on.
-/

namespace SparkRing.SessionLocks

open TransitionSystem Function

variable {session : Session} {ι : Type} [DecidableEq ι] {s s' : State ι} {t u : ι} {thread thread' : Thread} {rest : List Item}
  {effect : Effect} {lock : Lock}

/-- A thread is about to take the tuning lock for a choice. -/
def Thread.Finds (thread : Thread) : Prop := ∃ item ∈ thread.program.head?, item.isTake = true

/-- A thread will take the session lock. -/
def Thread.Wants (thread : Thread) : Prop := .acquire ∈ thread.program

/-- No thread holds the tuning lock on its way to the session lock while another one holds the
session lock and is about to take the tuning lock. -/
def Uncrossed (s : State ι) : Prop :=
  ∀ t u, t ≠ u → s.Tunes t → (s.threads t).Wants → s.lock = some u → ¬(s.threads u).Finds

/-- A thread takes the tuning lock on its way to the session lock only while no other thread that
holds the session lock is about to take the tuning lock; and a thread that holds the session lock
finds a choice only while no other one holds the tuning lock on its way to the session lock. -/
structure Apart (session : Session) (s : State ι) (a : Action ι) : Prop where
  takes : ∀ t, a = .go t → (s.threads t).Finds → (s.threads t).Wants → ∀ u, u ≠ t → s.lock = some u → ¬(s.threads u).Finds
  finds : ∀ t op nbytes mode direct rest, a = .go t → (s.threads t).program = .tuned op nbytes mode direct :: rest →
    (session.found s.suspended s.settings op nbytes mode direct).isSome → s.lock = some t →
      ∀ u, u ≠ t → s.Tunes u → ¬(s.threads u).Wants

/-- A step of a thread keeps what it will take, but for a choice that it finds. -/
theorem Moves.finds (h : Moves thread thread' effect) (hsound : thread.Sound) (hfinds : thread'.Finds) :
    effect = .none ∧ thread'.contexts = thread.contexts ∧
      ∃ op nbytes mode direct choice rest, thread.program = .tuned op nbytes mode direct :: rest ∧ thread'.program = .take op nbytes choice :: rest := by
  have hnone : thread'.program ≠ thread.program.tail := by
    intro hsame
    obtain ⟨item, hitem, htake⟩ := hfinds
    rw [hsame] at hitem
    rw [hsound.next item (List.mem_of_mem_head? hitem)] at htake
    cases htake
  cases h with
  | found => exact ⟨rfl, rfl, _, _, _, _, _, _, rfl, rfl⟩
  | work | plain | take | acquire | hold | suspend | resume | leaveSession | leavePlain | leaveTuned | leaveCounting =>
    exact absurd rfl hnone

theorem Moves.wants (h : Moves thread thread' effect) (hwants : thread'.Wants) : thread.Wants := by
  cases h with
  | found =>
    rcases List.mem_cons.mp hwants with hwants | hwants
    · cases hwants
    · exact List.mem_cons_of_mem _ hwants
  | work | plain | take | acquire | hold | suspend | resume | leaveSession | leavePlain | leaveTuned | leaveCounting =>
    exact List.mem_cons_of_mem _ hwants

/-- A thread that takes the tuning lock on its way to the session lock does so for a choice. -/
theorem Moves.takes (h : Moves thread thread' .lockTuning) (hsound : thread.Sound) (hwants : thread'.Wants) : thread.Finds := by
  have hbefore := h.wants hwants
  cases h with
  | take => exact ⟨_, rfl, rfl⟩
  | hold =>
    have hzero := hsound.alone List.mem_cons_self
    have hcount := List.count_pos_iff.mpr hbefore
    omega

/-- A thread that enters the context of an op and has not gone on has found a choice. -/
theorem isSome_found {op : TunedOp} {nbytes : ℕ} {mode : RunMode} {direct : Bool} (hgo : session.go s t = some s')
    (hprogram : (s.threads t).program = .tuned op nbytes mode direct :: rest) (hnot : (s'.threads t).program ≠ rest) :
    (session.found s.suspended s.settings op nbytes mode direct).isSome := by
  unfold Session.go at hgo
  dsimp only at hgo
  rw [hprogram] at hgo
  dsimp only at hgo
  cases hchoice : session.found s.suspended s.settings op nbytes mode direct with
  | some => rfl
  | none =>
    rw [hchoice] at hgo
    cases hgo
    rw [threads_put, update_self] at hnot
    exact absurd rfl hnot

/-- A thread that goes on apart from the others crosses none. -/
theorem Uncrossed.go (h : Uncrossed s) (hconsistent : Consistent s) (hapart : Apart session s (.go t)) (hgo : session.go s t = some s') :
    Uncrossed s' := by
  obtain ⟨thread, effect, hmoves, hthreads, hlocks⟩ := go_cases hgo
  have hself : s'.threads t = thread := by rw [hthreads, update_self]
  have hother : ∀ u, u ≠ t → s'.threads u = s.threads u := fun u hu => by rw [hthreads, update_of_ne hu]
  intro v u hne htunes hwants hlock hfinds
  by_cases hu : u = t
  · -- the thread that steps finds a choice while another one is between its locks
    subst hu
    rw [hself] at hfinds
    rw [hother v hne] at hwants
    obtain ⟨rfl, _, op, nbytes, mode, direct, choice, rest, hprogram, hprogram'⟩ := hmoves.finds (hconsistent.sound u) hfinds
    have hfound : (session.found s.suspended s.settings op nbytes mode direct).isSome := by
      refine isSome_found hgo hprogram fun hsame => ?_
      rw [hself, hprogram'] at hsame
      have hnext := (hconsistent.sound u).next (.take op nbytes choice)
      rw [hprogram, List.tail_cons] at hnext
      cases hnext (hsame ▸ List.mem_cons_self)
    exact hapart.finds u op nbytes mode direct rest rfl hprogram hfound (hlocks.1 ▸ hlock) v hne (hlocks.tunes (Or.inl hne) htunes) hwants
  · rw [hother u hu] at hfinds
    have hbefore : s.lock = some u := hlocks.lock_eq hu hlock
    by_cases hv : v = t
    · subst hv
      rw [hself] at hwants
      by_cases heffect : effect = .lockTuning
      · subst heffect
        exact hapart.takes v rfl (hmoves.takes (hconsistent.sound v) hwants) (hmoves.wants hwants) u hu hbefore hfinds
      · exact h v u hne (hlocks.tunes (Or.inr heffect) htunes) (hmoves.wants hwants) hbefore hfinds
    · rw [hother v hv] at hwants
      exact h v u hne (hlocks.tunes (Or.inl hv) htunes) hwants hbefore hfinds

/-- A thread that is replaced by one that is not about to take the tuning lock, and will not take
the session lock if it holds the tuning lock, crosses none. -/
theorem Uncrossed.put (h : Uncrossed s) (hfinds : s.lock = some t → ¬thread.Finds) (hwants : s.Tunes t → ¬thread.Wants) :
    Uncrossed (s.put t thread) := by
  intro v u hne htunes hwant hlock hfind
  by_cases hu : u = t
  · rw [hu, threads_put, update_self] at hfind
    exact hfinds (hu ▸ hlock) hfind
  rw [threads_put, update_of_ne hu] at hfind
  by_cases hv : v = t
  · rw [hv, threads_put, update_self] at hwant
    exact hwants (hv ▸ htunes) hwant
  · rw [threads_put, update_of_ne hv] at hwant
    exact h v u hne htunes hwant hlock hfind

/-- A step apart crosses no threads. -/
theorem Uncrossed.step {a : Action ι} (h : Uncrossed s) (hconsistent : Consistent s) (hapart : Apart session s a)
    (hstep : session.step s a = some s') : Uncrossed s' := by
  cases a with
  | go => exact h.go hconsistent hapart hstep
  | raise t =>
    simp only [Session.step] at hstep
    split_ifs at hstep
    cases hstep
    have honly : ∀ item ∈ (s.threads t).contexts.map fun _ => Item.leave, item = .leave := by
      intro item hitem
      obtain ⟨_, _, rfl⟩ := List.mem_map.mp hitem
      rfl
    refine h.put (fun _ hfinds => ?_) fun _ hwants => by cases honly _ hwants
    obtain ⟨item, hitem, htake⟩ := hfinds
    rw [honly item (List.mem_of_mem_head? hitem)] at htake
    cases htake
  | call =>
    simp only [Session.step] at hstep
    split_ifs at hstep with hidle
    cases hstep
    have hcontexts := hconsistent.contexts_eq_nil hidle.1
    refine h.put (fun hlock => ?_) fun htunes => ?_
    · have hsessions := hconsistent.sessions_eq_one hlock
      rw [hcontexts] at hsessions
      cases hsessions
    have hpos := hconsistent.tunings_pos htunes
    rw [hcontexts] at hpos
    cases hpos

/-- The locks of a session. -/
inductive Lock
  | session
  | tuning

instance : Finite Lock := Finite.of_injective (fun lock : Lock => match lock with | .session => true | .tuning => false) fun a b h => by
  cases a <;> cases b <;> simp_all

/-- A thread holds a lock. -/
def State.Holds (s : State ι) (t : ι) : Lock → Prop
  | .session => s.lock = some t
  | .tuning => s.Tunes t

def State.Waits (s : State ι) (t : ι) : Lock → Prop
  | .session => (s.threads t).program.head? = some .acquire
  | .tuning => (s.threads t).Finds ∨ (s.threads t).program.head? = some .hold

/-- A thread whose call has not returned goes on, unless a lock that it waits for is another's. -/
theorem Consistent.go_isSome (h : Consistent s) (hne : (s.threads t).program ≠ []) (hfree : ¬LockWaits.Blocked s.Holds s.Waits t) :
    (session.go s t).isSome := by
  have htuning : s.Waits t .tuning → ∀ thread, ((s.put t thread).lockTuning t).isSome := by
    intro hwaits thread
    unfold State.lockTuning
    rw [tuningLock_put]
    cases hlock : s.tuningLock with
    | none => rfl
    | some holder =>
      obtain ⟨u, depth⟩ := holder
      by_cases hu : u = t
      · dsimp only
        rw [if_pos hu]
        rfl
      · exact absurd ⟨.tuning, u, hwaits, ⟨depth, hlock⟩, hu⟩ hfree
  have hsound := h.sound t
  have hsessions := h.lock t
  unfold LockWaits.Blocked State.Waits at hfree
  unfold State.Waits at htuning
  unfold Session.go
  generalize s.threads t = thread at *
  obtain ⟨program, contexts, suspensions⟩ := thread
  cases program with
  | nil => exact absurd rfl hne
  | cons item rest =>
    cases item with
    | work => rfl
    | tuned op nbytes mode direct =>
      dsimp only
      cases session.found s.suspended s.settings op nbytes mode direct with
      | none | some => rfl
    | take =>
      rw [Option.isSome_map]
      exact htuning (Or.inl ⟨_, rfl, rfl⟩) _
    | acquire =>
      cases hlock : s.lock with
      | none => rfl
      | some u =>
        by_cases hu : u = t
        · have honce : sessions contexts + (rest.count .acquire + 1) ≤ 1 := by simpa using hsound.once
          have hone : sessions contexts = 1 := by rw [hsessions, hlock, hu, if_pos rfl]
          omega
        · exact absurd ⟨.session, u, rfl, hlock, hu⟩ hfree
    | hold => exact htuning (Or.inr rfl) _
    | suspend | resume => rfl
    | leave =>
      cases contexts with
      | nil => exact absurd hsound.balanced id
      | cons context contexts => cases context <;> rfl

omit [DecidableEq ι] in
theorem tunes_unique (ht : s.Tunes t) (hu : s.Tunes u) : t = u := by
  obtain ⟨_, ht⟩ := ht
  obtain ⟨_, hu⟩ := hu
  rw [ht] at hu
  exact congrArg Prod.fst (Option.some.inj hu)

omit [DecidableEq ι] in
theorem holds_unique (ht : s.Holds t lock) (hu : s.Holds u lock) : t = u := by
  cases lock with
  | session => exact Option.some.inj (ht.symm.trans hu)
  | tuning => exact tunes_unique ht hu

/-- While no threads cross, the locks can be ranked. -/
theorem Uncrossed.exists_ranked (h : Uncrossed s) (hconsistent : Consistent s) : ∃ rank, LockWaits.Ranked s.Holds s.Waits rank := by
  by_cases hbetween : ∃ t, s.Tunes t ∧ (s.threads t).Wants
  · -- some thread goes from the tuning lock to the session lock
    obtain ⟨v, hvtunes, hvwants⟩ := hbetween
    refine ⟨fun lock => match lock with | .tuning => 0 | .session => 1, fun t l k u hholds hwaits hother hne => ?_⟩
    cases k with
    | session =>
      cases l with
      | session => exact absurd (holds_unique hother hholds) hne
      | tuning => exact Nat.zero_lt_one
    | tuning =>
      cases l with
      | tuning => exact absurd (holds_unique hother hholds) hne
      | session =>
        obtain rfl : v = u := tunes_unique hvtunes hother
        rcases hwaits with hfinds | hhold
        · exact absurd hfinds (h v t hne hvtunes hvwants hholds)
        have hzero := (hconsistent.sound t).alone (List.mem_of_mem_head? hhold)
        have hsessions := hconsistent.sessions_eq_one hholds
        omega
  · refine ⟨fun lock => match lock with | .session => 0 | .tuning => 1, fun t l k u hholds hwaits hother hne => ?_⟩
    cases k with
    | tuning =>
      cases l with
      | tuning => exact absurd (holds_unique hother hholds) hne
      | session => exact Nat.zero_lt_one
    | session =>
      cases l with
      | session => exact absurd (holds_unique hother hholds) hne
      | tuning => exact absurd ⟨t, hholds, List.mem_of_mem_head? hwaits⟩ hbetween

/-- A thread that holds a lock has not returned. -/
theorem Consistent.ne_nil_of_holds (h : Consistent s) (hholds : s.Holds t lock) : (s.threads t).program ≠ [] := by
  intro hnil
  have hcontexts := h.contexts_eq_nil hnil
  cases lock with
  | session =>
    have hsessions := h.sessions_eq_one hholds
    rw [hcontexts] at hsessions
    cases hsessions
  | tuning =>
    have hpos := h.tunings_pos hholds
    rw [hcontexts] at hpos
    cases hpos

/-- The threads of a session do not lock each other out. -/
structure Free (session : Session) (s : State ι) : Prop where
  /-- While some call has not returned, some such call goes on. -/
  proceeds : (∃ t, (s.threads t).program ≠ []) → ∃ t, (s.threads t).program ≠ [] ∧ (session.go s t).isSome
  /-- No two threads hold one lock each and wait for the other's. -/
  acyclic : ∀ t u, t ≠ u → s.Holds t .session → s.Waits t .tuning → s.Holds u .tuning → ¬s.Waits u .session

/-- In a run whose steps are all apart, the threads of a session never lock each other out. -/
theorem free_of_apart (session : Session) (s : State ι) (h : Reachable session.step (Apart session) (session.start ι) s) :
    Free session s := by
  have hconsistent : Consistent s :=
    h.invariant Consistent consistent_start fun _ _ _ _ hs _ hstep => hs.step hstep
  have huncrossed : Uncrossed s := by
    have hboth : Consistent s ∧ Uncrossed s := by
      refine h.invariant (fun s => Consistent s ∧ Uncrossed s) ⟨consistent_start, ?_⟩ fun _ _ _ _ hs hapart hstep =>
        ⟨hs.1.step hstep, hs.2.step hs.1 hapart hstep⟩
      exact fun _ _ _ _ _ hlock => nomatch hlock
    exact hboth.2
  obtain ⟨rank, hranked⟩ := huncrossed.exists_ranked hconsistent
  constructor
  · rintro ⟨t, hne⟩
    obtain ⟨u, hu, hfree⟩ := hranked.exists_not_blocked t
    have hactive : (s.threads u).program ≠ [] := by
      rcases hu with rfl | ⟨lock, hholds⟩
      · exact hne
      · exact hconsistent.ne_nil_of_holds hholds
    exact ⟨u, hactive, hconsistent.go_isSome hactive hfree⟩
  intro t u hne hsession hwaits htuning hwaits'
  have hup := hranked t .session .tuning u hsession hwaits htuning hne.symm
  have hdown := hranked u .tuning .session t htuning hwaits' hsession hne
  omega

def pairSettings : Settings where
  largeBlocks := 64
  blocks := 16
  largeSchedule := .auto
  gatherSchedule := .pieces
  scatterSchedule := .pieces
  ringMins := fun _ => 0
  chainMins := fun _ => 0
  linkChunks := fun _ => none
  chainChunkBytes := 65536
  ringStagger := 0
  ringGatherStagger := 0
  opBlocks := fun _ _ => none

/-- A pair whose table chooses a grid for every op. -/
def pair : Session where
  worldSize := 2
  subsetRing := false
  counterBlocks := 256
  maxSize := 2 ^ 20
  ringAvailable := false
  linkAvailable := false
  chainAvailable := false
  chainSlotBytes := 0
  linkSlotBytes := 0
  linkSlots := 0
  available := fun _ => true
  chainBlocksEnv := false
  linkBlocksEnv := fun _ => false
  builtin := false
  configured := pairSettings
  tableDecide := fun _ _ _ => some { grid := some 32 }

/-- A thread reduce-scatters while another one all-reduces. -/
def crossing : List (Action Bool) :=
  [.call false (.reduceScatter 4096 .eager false), .call true (.allReduceLarge 4096 .eager), .go false, .go true, .go true, .go true] ++
    List.replicate 9 (.go false)

/-- A reduce-scatter and a large all-reduce of one session lock each other out. -/
theorem reduce_scatter_locks_out : ¬∀ (session : Session) (ι : Type) (_ : DecidableEq ι) (s : State ι),
    Reachable session.step Unrestricted (session.start ι) s → Free session s := by
  intro h
  obtain ⟨s, hs, hstuck⟩ := Reachable.exists_of_runs pair.step (pair.start Bool) crossing
    (fun s => [false, true].all fun t => !(s.threads t).program.isEmpty && (pair.go s t).isNone) (by decide +kernel)
  rw [List.all_eq_true] at hstuck
  have hboth : ∀ t : Bool, (s.threads t).program ≠ [] ∧ pair.go s t = none := by
    intro t
    have ht := hstuck t (by cases t <;> decide)
    rw [Bool.and_eq_true, Bool.not_eq_true', List.isEmpty_eq_false_iff, Option.isNone_iff_eq_none] at ht
    exact ht
  obtain ⟨t, _, hgo⟩ := (h pair Bool inferInstance s hs).proceeds ⟨true, (hboth true).1⟩
  rw [(hboth t).2] at hgo
  cases hgo

/-- A step while no other thread holds a lock. -/
def alone (s : State Bool) : Action Bool → Bool
  | .go t => decide (s.lock ≠ some !t) && decide (s.tuningLock.map Prod.fst ≠ some !t)
  | _ => true

theorem apart_of_alone {s : State Bool} {a : Action Bool} (h : alone s a = true) : Apart pair s a := by
  have hother : ∀ t u : Bool, u ≠ t → u = !t := by decide
  constructor
  · rintro t rfl _ _ u hne hlock
    rw [hother t u hne] at hlock
    simp [alone, hlock] at h
  rintro t op nbytes mode direct rest rfl _ _ _ u hne ⟨depth, htunes⟩
  rw [hother t u hne] at htunes
  simp [alone, htunes] at h

/-- An all-to-all has found its choice, and a large all-reduce holds both locks. -/
theorem free_while_waiting : ∃ s : State Bool, Reachable pair.step (Apart pair) (pair.start Bool) s ∧
    ((s.threads false).program.isEmpty = false ∧ pair.go s false = none) ∧ Free pair s := by
  obtain ⟨s, hs, hwaits⟩ := Reachable.exists_of_checked_runs alone (fun _ _ => apart_of_alone) pair.step (pair.start Bool)
    [.call false (.allToAll 4096 .eager), .go false, .call true (.allReduceLarge 4096 .eager), .go true, .go true, .go true, .go true]
    (fun s => !(s.threads false).program.isEmpty && (pair.go s false).isNone) (by decide +kernel)
  rw [Bool.and_eq_true, Bool.not_eq_true', Option.isNone_iff_eq_none] at hwaits
  exact ⟨s, hs, hwaits, free_of_apart pair s hs⟩

end SparkRing.SessionLocks
