import SparkRing.SessionLocks

/-!
# The holders of a session's locks

Whatever the threads of a session do, its locks know their holders: the contexts of a thread say
which locks it holds, and what it has still to do leaves each of its contexts. A thread takes the
session lock once at most, and the tuning lock as often as it is inside contexts with a choice.
-/

namespace SparkRing.SessionLocks

open Function
open Option (some.inj)

variable {session : Session} {ι : Type} [DecidableEq ι] {s s' : State ι} {t u : ι} {thread thread' : Thread}
  {program rest second first : List Item} {contexts : List Context} {suspensions : ℕ} {item : Item}

/-- What a step of a thread does to the locks. -/
inductive Effect
  | none
  | lockSession
  | unlockSession
  | lockTuning
  | unlockTuning

/-- The steps of a thread that goes on. -/
inductive Moves : Thread → Thread → Effect → Prop
  | work {rest : List Item} {contexts : List Context} {suspensions : ℕ} :
    Moves ⟨.work :: rest, contexts, suspensions⟩ ⟨rest, contexts, suspensions⟩ .none
  | plain {op : TunedOp} {nbytes : ℕ} {mode : RunMode} {direct : Bool} {rest : List Item} {contexts : List Context} {suspensions : ℕ} :
    Moves ⟨.tuned op nbytes mode direct :: rest, contexts, suspensions⟩ ⟨rest, .plain :: contexts, suspensions⟩ .none
  | found {op : TunedOp} {nbytes : ℕ} {mode : RunMode} {direct : Bool} {choice : Choice} {rest : List Item}
      {contexts : List Context} {suspensions : ℕ} :
    Moves ⟨.tuned op nbytes mode direct :: rest, contexts, suspensions⟩ ⟨.take op nbytes choice :: rest, contexts, suspensions⟩ .none
  | take {op : TunedOp} {nbytes : ℕ} {choice : Choice} {saved : Settings} {rest : List Item} {contexts : List Context} {suspensions : ℕ} :
    Moves ⟨.take op nbytes choice :: rest, contexts, suspensions⟩ ⟨rest, .tuned saved :: contexts, suspensions⟩ .lockTuning
  | acquire {rest : List Item} {contexts : List Context} {suspensions : ℕ} :
    Moves ⟨.acquire :: rest, contexts, suspensions⟩ ⟨rest, .session :: contexts, suspensions⟩ .lockSession
  | hold {rest : List Item} {contexts : List Context} {suspensions : ℕ} :
    Moves ⟨.hold :: rest, contexts, suspensions⟩ ⟨rest, .counting :: contexts, suspensions⟩ .lockTuning
  | suspend {rest : List Item} {contexts : List Context} {suspensions : ℕ} :
    Moves ⟨.suspend :: rest, contexts, suspensions⟩ ⟨rest, contexts, suspensions + 1⟩ .none
  | resume {rest : List Item} {contexts : List Context} {suspensions : ℕ} :
    Moves ⟨.resume :: rest, contexts, suspensions⟩ ⟨rest, contexts, suspensions - 1⟩ .none
  | leaveSession {rest : List Item} {contexts : List Context} {suspensions : ℕ} :
    Moves ⟨.leave :: rest, .session :: contexts, suspensions⟩ ⟨rest, contexts, suspensions⟩ .unlockSession
  | leavePlain {rest : List Item} {contexts : List Context} {suspensions : ℕ} :
    Moves ⟨.leave :: rest, .plain :: contexts, suspensions⟩ ⟨rest, contexts, suspensions⟩ .none
  | leaveTuned {saved : Settings} {rest : List Item} {contexts : List Context} {suspensions : ℕ} :
    Moves ⟨.leave :: rest, .tuned saved :: contexts, suspensions⟩ ⟨rest, contexts, suspensions⟩ .unlockTuning
  | leaveCounting {rest : List Item} {contexts : List Context} {suspensions : ℕ} :
    Moves ⟨.leave :: rest, .counting :: contexts, suspensions⟩ ⟨rest, contexts, suspensions⟩ .unlockTuning

/-- The locks before and after a step of a thread. -/
def Effect.Locks (t : ι) (s s' : State ι) : Effect → Prop
  | .none => s'.lock = s.lock ∧ s'.tuningLock = s.tuningLock
  | .lockSession => s.lock = Option.none ∧ s'.lock = some t ∧ s'.tuningLock = s.tuningLock
  | .unlockSession => s'.lock = Option.none ∧ s'.tuningLock = s.tuningLock
  | .lockTuning => s'.lock = s.lock ∧ (s.lockTuning t).map State.tuningLock = some s'.tuningLock
  | .unlockTuning => s'.lock = s.lock ∧ s'.tuningLock = s.unlockTuning.tuningLock

@[simp] theorem threads_put : (s.put t thread).threads = update s.threads t thread := rfl

@[simp] theorem tuningLock_put : (s.put t thread).tuningLock = s.tuningLock := rfl

/-- Taking the tuning lock changes only that lock. -/
theorem lockTuning_eq (h : s.lockTuning u = some s') : s'.threads = s.threads ∧ s'.lock = s.lock := by
  unfold State.lockTuning at h
  split at h
  · cases h
    exact ⟨rfl, rfl⟩
  split_ifs at h
  cases h
  exact ⟨rfl, rfl⟩

omit [DecidableEq ι] in
@[simp] theorem threads_unlockTuning : s.unlockTuning.threads = s.threads := by
  unfold State.unlockTuning
  split <;> rfl

omit [DecidableEq ι] in
@[simp] theorem lock_unlockTuning : s.unlockTuning.lock = s.lock := by
  unfold State.unlockTuning
  split <;> rfl

/-- What a thread's own state is does not matter to the tuning lock. -/
theorem map_lockTuning_put : ((s.put t thread).lockTuning u).map State.tuningLock = (s.lockTuning u).map State.tuningLock := by
  unfold State.lockTuning
  rw [tuningLock_put]
  split
  · rfl
  · split_ifs <;> rfl

theorem unlockTuning_put : (s.put t thread).unlockTuning.tuningLock = s.unlockTuning.tuningLock := by
  unfold State.unlockTuning
  rw [tuningLock_put]
  split <;> rfl

/-- A thread that goes on makes one of its steps, and the others stay as they are. -/
theorem go_cases (h : session.go s t = some s') : ∃ thread effect, Moves (s.threads t) thread effect ∧
    s'.threads = update s.threads t thread ∧ effect.Locks t s s' := by
  unfold Session.go at h
  generalize s.threads t = thread at h ⊢
  obtain ⟨program, contexts, suspensions⟩ := thread
  cases program with
  | nil => cases h
  | cons item rest =>
    cases item with
    | work =>
      cases h
      exact ⟨_, _, .work, rfl, rfl, rfl⟩
    | tuned op nbytes mode direct =>
      dsimp only at h
      cases hfound : session.found s.suspended s.settings op nbytes mode direct with
      | none =>
        rw [hfound] at h
        cases h
        exact ⟨_, _, .plain, rfl, rfl, rfl⟩
      | some =>
        rw [hfound] at h
        cases h
        exact ⟨_, _, .found, rfl, rfl, rfl⟩
    | take =>
      obtain ⟨locked, hlocked, rfl⟩ := Option.map_eq_some_iff.mp h
      obtain ⟨hthreads, hlock⟩ := lockTuning_eq hlocked
      refine ⟨_, _, .take, hthreads, hlock, ?_⟩
      rw [← map_lockTuning_put, hlocked]
      rfl
    | acquire =>
      split_ifs at h with hfree
      cases h
      exact ⟨_, _, .acquire, rfl, hfree, rfl, rfl⟩
    | hold =>
      dsimp only at h
      obtain ⟨hthreads, hlock⟩ := lockTuning_eq h
      refine ⟨_, _, .hold, hthreads, hlock, ?_⟩
      rw [← map_lockTuning_put, h]
      rfl
    | suspend =>
      cases h
      exact ⟨_, _, .suspend, rfl, rfl, rfl⟩
    | resume =>
      cases h
      exact ⟨_, _, .resume, rfl, rfl, rfl⟩
    | leave =>
      cases contexts with
      | nil => cases h
      | cons context contexts =>
        cases context with
        | session =>
          cases h
          exact ⟨_, _, .leaveSession, rfl, rfl, rfl⟩
        | plain =>
          cases h
          exact ⟨_, _, .leavePlain, rfl, rfl, rfl⟩
        | tuned =>
          cases h
          exact ⟨_, _, .leaveTuned, threads_unlockTuning, lock_unlockTuning, unlockTuning_put⟩
        | counting =>
          cases h
          exact ⟨_, _, .leaveCounting, threads_unlockTuning, lock_unlockTuning, unlockTuning_put⟩

/-- How often a context takes the session lock. -/
def Context.sessions : Context → ℕ
  | .session => 1
  | _ => 0

/-- How often a context takes the tuning lock. -/
def Context.tunings : Context → ℕ
  | .tuned _ => 1
  | .counting => 1
  | _ => 0

/-- How often contexts take the session lock. -/
def sessions (contexts : List Context) : ℕ := (contexts.map Context.sessions).sum

/-- How often contexts take the tuning lock. -/
def tunings (contexts : List Context) : ℕ := (contexts.map Context.tunings).sum

@[simp] theorem sessions_cons {context : Context} : sessions (context :: contexts) = context.sessions + sessions contexts := rfl

@[simp] theorem tunings_cons {context : Context} : tunings (context :: contexts) = context.tunings + tunings contexts := rfl

/-- What is left to do inside contexts leaves each of them. -/
def Balanced : List Item → ℕ → Prop
  | [], depth => depth = 0
  | .work :: rest, depth => Balanced rest depth
  | .suspend :: rest, depth => Balanced rest depth
  | .resume :: rest, depth => Balanced rest depth
  | .tuned _ _ _ _ :: rest, depth => Balanced rest (depth + 1)
  | .take _ _ _ :: rest, depth => Balanced rest (depth + 1)
  | .acquire :: rest, depth => Balanced rest (depth + 1)
  | .hold :: rest, depth => Balanced rest (depth + 1)
  | .leave :: _, 0 => False
  | .leave :: rest, depth + 1 => Balanced rest depth

/-- An item takes the tuning lock for a choice. -/
def Item.isTake : Item → Bool
  | .take _ _ _ => true
  | _ => false

/-- The contexts of a thread fit what it has still to do. -/
structure Thread.Sound (thread : Thread) : Prop where
  /-- Each context is left. -/
  balanced : Balanced thread.program thread.contexts.length
  /-- The session lock is taken once at most. -/
  once : sessions thread.contexts + thread.program.count .acquire ≤ 1
  /-- Who takes the tuning lock to count takes no session lock. -/
  alone : .hold ∈ thread.program → sessions thread.contexts + thread.program.count .acquire = 0
  /-- A choice that was found is taken next. -/
  next : ∀ item ∈ thread.program.tail, item.isTake = false

/-- A thread that is done with an item is sound when its contexts fit the rest. -/
theorem Thread.Sound.advance {contexts' : List Context} {suspensions' : ℕ}
    (h : Thread.Sound ⟨item :: rest, contexts, suspensions⟩) (hbalanced : Balanced rest contexts'.length)
    (honce : sessions contexts' + rest.count .acquire ≤ sessions contexts + (item :: rest).count .acquire) :
    Thread.Sound ⟨rest, contexts', suspensions'⟩ where
  balanced := hbalanced
  once := honce.trans h.once
  alone := by
    intro hhold
    have hzero := h.alone (List.mem_cons_of_mem _ hhold)
    exact Nat.le_zero.mp (honce.trans hzero.le)
  next := fun later hlater => h.next later (List.mem_of_mem_tail hlater)

variable {effect : Effect}

/-- A step of a thread keeps it sound. -/
theorem Moves.sound (h : Moves thread thread' effect) (hsound : thread.Sound) : thread'.Sound := by
  have hbalanced := hsound.balanced
  cases h with
  | work | suspend | resume => exact hsound.advance hbalanced (by simp)
  | plain | take | hold | leaveSession | leavePlain | leaveTuned | leaveCounting =>
    exact hsound.advance hbalanced (by simp [Context.sessions])
  | found =>
    refine ⟨hbalanced, ?_, ?_, hsound.next⟩
    · simpa using hsound.once
    · simpa using hsound.alone
  | acquire => exact hsound.advance hbalanced (by simp [Context.sessions]; omega)

/-- What a step does to the contexts that take a lock. -/
def Effect.Counts (before after : List Context) : Effect → Prop
  | .none => sessions after = sessions before ∧ tunings after = tunings before
  | .lockSession => sessions after = sessions before + 1 ∧ tunings after = tunings before
  | .unlockSession => sessions before = sessions after + 1 ∧ tunings after = tunings before
  | .lockTuning => sessions after = sessions before ∧ tunings after = tunings before + 1
  | .unlockTuning => sessions after = sessions before ∧ tunings before = tunings after + 1

theorem Moves.counts (h : Moves thread thread' effect) : effect.Counts thread.contexts thread'.contexts := by
  cases h <;> simp [Effect.Counts, Context.sessions, Context.tunings, Nat.add_comm]

/-- Items that leave each context that they enter, without a choice that was found. -/
structure Closed (items : List Item) : Prop where
  balanced : ∀ rest depth, Balanced rest depth → Balanced (items ++ rest) depth
  fresh : ∀ item ∈ items, item.isTake = false

theorem Closed.append (hfirst : Closed first) (hsecond : Closed second) : Closed (first ++ second) where
  balanced := by
    intro rest depth h
    rw [List.append_assoc]
    exact hfirst.balanced _ _ (hsecond.balanced rest depth h)
  fresh := by
    intro item hitem
    rcases List.mem_append.mp hitem with hitem | hitem
    · exact hfirst.fresh item hitem
    · exact hsecond.fresh item hitem

theorem closed_nil : Closed [] := ⟨fun _ _ h => h, fun _ h => nomatch h⟩

section

variable (h : Closed program)

include h

/-- An item that enters or leaves nothing, before others. -/
theorem Closed.cons (hbalanced : ∀ rest depth, Balanced rest depth → Balanced (item :: rest) depth)
    (hfresh : item.isTake = false) : Closed (item :: program) :=
  ⟨fun rest depth hrest => hbalanced _ _ (h.balanced rest depth hrest), by simpa using ⟨hfresh, h.fresh⟩⟩

theorem Closed.work : Closed (.work :: program) := h.cons (fun _ _ hrest => hrest) rfl

/-- A context around items. -/
theorem Closed.around (hbalanced : ∀ rest depth, Balanced rest (depth + 1) → Balanced (item :: rest) depth) (hfresh : item.isTake = false) :
    Closed (item :: program ++ [.leave]) where
  balanced := by
    intro rest depth hrest
    rw [List.cons_append, List.cons_append, List.append_assoc]
    exact hbalanced _ _ (h.balanced (.leave :: rest) (depth + 1) hrest)
  fresh := by
    intro later hlater
    rcases List.mem_append.mp hlater with hlater | hlater
    · rcases List.mem_cons.mp hlater with rfl | hlater
      · exact hfresh
      · exact h.fresh later hlater
    · rw [List.mem_singleton.mp hlater]
      rfl

theorem Closed.locked : Closed (locked program) := h.around (fun _ _ hrest => hrest) rfl

theorem Closed.tunedOp {op : TunedOp} {nbytes : ℕ} {mode : RunMode} {direct : Bool} :
    Closed (tunedOp op nbytes mode direct program) := h.around (fun _ _ hrest => hrest) rfl

end

theorem Closed.ite {c : Prop} [Decidable c] (hfirst : Closed first) (hsecond : Closed second) : Closed (if c then first else second) := by
  split_ifs
  · exact hfirst
  · exact hsecond

/-- A call leaves each context that it enters. -/
theorem Call.closed (call : Call) : Closed call.program := by
  have hwork : Closed [.work] := closed_nil.work
  cases call with
  | allReduce => exact ((hwork.ite hwork.tunedOp).append hwork).work.locked
  | allReduceLarge => exact (((hwork.tunedOp.append hwork).work.tunedOp).append hwork).work.locked
  | allGather => exact hwork.tunedOp.work.locked
  | allGatherLarge =>
    exact (((closed_nil.ite ((hwork.tunedOp.append (closed_nil.ite hwork.tunedOp)).append hwork)).work.tunedOp).append hwork).work.locked
  | reduceScatter => exact ((hwork.tunedOp.append (closed_nil.ite hwork.tunedOp)).append hwork.locked).tunedOp
  | allToAll => exact hwork.locked.tunedOp
  | scatterUsesRing nbytes mode | scatterUsesChain nbytes mode | gatherUsesRing nbytes mode
  | gatherUsesChain | largeReducePlan => exact hwork.tunedOp
  | shouldReduceScatter => exact (hwork.tunedOp.append (closed_nil.ite hwork.tunedOp)).append hwork
  | shouldAllToAll => exact hwork
  | untuned | tunedAgain => exact ⟨fun _ _ h => h, by decide⟩
  | close => exact hwork.locked.append hwork

theorem Call.sound {call : Call} : Thread.Sound ⟨call.program, [], suspensions⟩ where
  balanced := by
    have h := call.closed.balanced [] 0 rfl
    rwa [List.append_nil] at h
  once := by
    cases call <;> simp [Call.program, locked, tunedOp, sessions, SessionLocks.scatterUsesRing, SessionLocks.scatterUsesChain,
      SessionLocks.gatherUsesRing, SessionLocks.gatherUsesChain, SessionLocks.largeReducePlan]
    all_goals
      split_ifs
      all_goals simp
  alone := by
    cases call <;> simp [Call.program, locked, tunedOp, sessions, SessionLocks.scatterUsesRing, SessionLocks.scatterUsesChain,
      SessionLocks.gatherUsesRing, SessionLocks.gatherUsesChain, SessionLocks.largeReducePlan]
    split_ifs
    all_goals simp
  next := fun item hitem => call.closed.fresh item (List.mem_of_mem_tail hitem)

/-- How often a thread has taken the tuning lock, as the lock counts it. -/
def State.depthOf (s : State ι) (t : ι) : ℕ :=
  match s.tuningLock with
  | some (u, depth) => if u = t then depth else 0
  | none => 0

/-- The locks know their holders, whose contexts fit what they have still to do. -/
structure Consistent (s : State ι) : Prop where
  sound : ∀ t, (s.threads t).Sound
  lock : ∀ t, sessions (s.threads t).contexts = if s.lock = some t then 1 else 0
  tuning : ∀ t, tunings (s.threads t).contexts = s.depthOf t
  positive : ∀ t depth, s.tuningLock = some (t, depth) → 0 < depth

/-- A thread holds the tuning lock. -/
def State.Tunes (s : State ι) (t : ι) : Prop := ∃ depth, s.tuningLock = some (t, depth)

/-- The session lock after a step. -/
theorem Effect.Locks.lock_eq (h : effect.Locks t s s') (hne : u ≠ t) (hlock : s'.lock = some u) : s.lock = some u := by
  cases effect with
  | none => exact h.1 ▸ hlock
  | lockSession =>
    rw [h.2.1] at hlock
    exact absurd (some.inj hlock).symm hne
  | unlockSession =>
    rw [h.1] at hlock
    cases hlock
  | lockTuning | unlockTuning => exact h.1 ▸ hlock

theorem lockTuning_cases (h : (s.lockTuning t).map State.tuningLock = some s'.tuningLock) :
    (s.tuningLock = none ∧ s'.tuningLock = some (t, 1)) ∨
      ∃ depth, s.tuningLock = some (t, depth) ∧ s'.tuningLock = some (t, depth + 1) := by
  unfold State.lockTuning at h
  cases hlock : s.tuningLock with
  | none =>
    rw [hlock] at h
    exact Or.inl ⟨rfl, (some.inj h).symm⟩
  | some holder =>
    obtain ⟨u, depth⟩ := holder
    rw [hlock] at h
    dsimp only at h
    split_ifs at h with hholder
    · subst hholder
      exact Or.inr ⟨depth, rfl, (some.inj h).symm⟩
    · cases h

omit [DecidableEq ι] in
theorem tuningLock_unlockTuning : s.unlockTuning.tuningLock = none ∨
    ∃ u depth, s.tuningLock = some (u, depth + 2) ∧ s.unlockTuning.tuningLock = some (u, depth + 1) := by
  unfold State.unlockTuning
  split
  · next u depth hlock => exact Or.inr ⟨u, depth, hlock, rfl⟩
  · exact Or.inl rfl

/-- A thread that holds the tuning lock after a step that is not its taking of it held it before. -/
theorem Effect.Locks.tunes (h : effect.Locks t s s') (hnot : u ≠ t ∨ effect ≠ .lockTuning) (htunes : s'.Tunes u) : s.Tunes u := by
  obtain ⟨depth, htunes⟩ := htunes
  cases effect with
  | none | unlockSession => exact ⟨depth, h.2 ▸ htunes⟩
  | lockSession => exact ⟨depth, h.2.2 ▸ htunes⟩
  | lockTuning =>
    have hne : u ≠ t := hnot.resolve_right fun hnot => hnot rfl
    rcases lockTuning_cases h.2 with ⟨_, hlock⟩ | ⟨_, _, hlock⟩
    all_goals
      rw [hlock] at htunes
      exact absurd (congrArg Prod.fst (some.inj htunes)).symm hne
  | unlockTuning =>
    rw [h.2] at htunes
    rcases tuningLock_unlockTuning with hlock | ⟨v, before, hbefore, hlock⟩
    · rw [hlock] at htunes
      cases htunes
    rw [hlock] at htunes
    have hholder : v = u := congrArg Prod.fst (some.inj htunes)
    exact ⟨before + 2, hholder ▸ hbefore⟩

/-- How often threads have taken the tuning lock after a step. -/
theorem Effect.Locks.depthOf (h : effect.Locks t s s') (hpositive : ∀ t depth, s.tuningLock = some (t, depth) → 0 < depth)
    (hholds : effect = .unlockTuning → s.Tunes t) :
    (∀ u, u ≠ t → s'.depthOf u = s.depthOf u) ∧ match effect with
      | .lockTuning => s'.depthOf t = s.depthOf t + 1
      | .unlockTuning => s.depthOf t = s'.depthOf t + 1
      | _ => s'.depthOf t = s.depthOf t := by
  cases effect with
  | none | unlockSession => simp [State.depthOf, h.2]
  | lockSession => simp [State.depthOf, h.2.2]
  | lockTuning =>
    rcases lockTuning_cases h.2 with ⟨hbefore, hlock⟩ | ⟨depth, hbefore, hlock⟩
    · simp +contextual [State.depthOf, hbefore, hlock, eq_comm]
    · simp +contextual [State.depthOf, hbefore, hlock, eq_comm]
  | unlockTuning =>
    obtain ⟨depth, hbefore⟩ := hholds rfl
    have hpos := hpositive t depth hbefore
    obtain ⟨depth, rfl⟩ := Nat.exists_eq_add_one_of_ne_zero hpos.ne'
    have hlock : s'.tuningLock = if depth = 0 then Option.none else some (t, depth) := by
      rw [h.2]
      cases depth with
      | zero | succ => simp [State.unlockTuning, hbefore]
    by_cases hzero : depth = 0
    · simp +contextual [State.depthOf, hbefore, hlock, hzero, eq_comm]
    · simp +contextual [State.depthOf, hbefore, hlock, hzero, eq_comm]

theorem tunes_of_depthOf (h : 0 < s.depthOf t) : s.Tunes t := by
  unfold State.depthOf at h
  split at h
  · next u depth hlock =>
    split_ifs at h with hholder
    · exact ⟨depth, hholder ▸ hlock⟩
    · omega
  · omega

theorem State.Tunes.depthOf (hpositive : ∀ t depth, s.tuningLock = some (t, depth) → 0 < depth) (h : s.Tunes t) : 0 < s.depthOf t := by
  obtain ⟨depth, hlock⟩ := h
  have hpos := hpositive t depth hlock
  simpa [State.depthOf, hlock] using hpos

section

variable (h : Consistent s)

include h

/-- The holder of the session lock is in its context once. -/
theorem Consistent.sessions_eq_one (hlock : s.lock = some t) : sessions (s.threads t).contexts = 1 := by
  rw [h.lock t, if_pos hlock]

/-- The holder of the tuning lock is in its context. -/
theorem Consistent.tunings_pos (htunes : s.Tunes t) : 0 < tunings (s.threads t).contexts := by
  rw [h.tuning t]
  exact htunes.depthOf h.positive

/-- A thread whose call has returned is in no context. -/
theorem Consistent.contexts_eq_nil (hidle : (s.threads t).program = []) : (s.threads t).contexts = [] := by
  have hbalanced := (h.sound t).balanced
  rw [hidle] at hbalanced
  exact List.length_eq_zero_iff.mp hbalanced

/-- The locks know their holders after a step of a thread. -/
theorem Consistent.go (hgo : session.go s t = some s') : Consistent s' := by
  obtain ⟨thread, effect, hmoves, hthreads, hlocks⟩ := go_cases hgo
  have hcounts := hmoves.counts
  have hself : s'.threads t = thread := by rw [hthreads, update_self]
  have hother : ∀ u, u ≠ t → s'.threads u = s.threads u := fun u hu => by rw [hthreads, update_of_ne hu]
  have hholds : effect = .unlockTuning → s.Tunes t := by
    rintro rfl
    refine tunes_of_depthOf ?_
    rw [← h.tuning t, hcounts.2]
    exact Nat.succ_pos _
  obtain ⟨hdepths, hdepth⟩ := hlocks.depthOf h.positive hholds
  have hsessions := h.lock t
  have htunings := h.tuning t
  refine ⟨fun u => ?_, fun u => ?_, fun u => ?_, fun u depth hlock => ?_⟩
  · by_cases hu : u = t
    · rw [hu, hself]
      exact hmoves.sound (h.sound t)
    · rw [hother u hu]
      exact h.sound u
  · by_cases hu : u = t
    · subst hu
      rw [hself]
      cases effect with
      | none | lockTuning | unlockTuning => rw [hcounts.1, hsessions, hlocks.1]
      | lockSession => rw [hcounts.1, hsessions, hlocks.1, hlocks.2.1, if_neg (by simp), if_pos rfl]
      | unlockSession =>
        rw [hlocks.1, if_neg (by simp)]
        rw [hcounts.1] at hsessions
        split_ifs at hsessions
        · omega
    · rw [hother u hu, h.lock u]
      cases effect with
      | none => rw [hlocks.1]
      | lockSession =>
        rw [hlocks.1, hlocks.2.1, if_neg (by simp), if_neg]
        exact fun hsame => hu (some.inj hsame).symm
      | unlockSession =>
        have hholder : s.lock = some t := by
          by_contra hnot
          rw [if_neg hnot, hcounts.1] at hsessions
          omega
        rw [hlocks.1, hholder, if_neg (fun hsame => hu (some.inj hsame).symm), if_neg (by simp)]
      | lockTuning | unlockTuning => rw [hlocks.1]
  · by_cases hu : u = t
    · subst hu
      rw [hself]
      cases effect with
      | none | lockSession | unlockSession | lockTuning => rw [hcounts.2, htunings, hdepth]
      | unlockTuning =>
        have hcount := hcounts.2
        omega
    · rw [hother u hu, h.tuning u, hdepths u hu]
  · cases effect with
    | none | unlockSession => exact h.positive u depth (hlocks.2 ▸ hlock)
    | lockSession => exact h.positive u depth (hlocks.2.2 ▸ hlock)
    | lockTuning =>
      rcases lockTuning_cases hlocks.2 with ⟨_, hafter⟩ | ⟨before, _, hafter⟩
      all_goals
        rw [hafter] at hlock
        cases hlock
        exact Nat.succ_pos _
    | unlockTuning =>
      rw [hlocks.2] at hlock
      rcases tuningLock_unlockTuning with hafter | ⟨v, before, _, hafter⟩
      · rw [hafter] at hlock
        cases hlock
      rw [hafter] at hlock
      cases hlock
      exact Nat.succ_pos _

/-- A thread that is replaced keeps the locks known when it keeps its contexts and is sound. -/
theorem Consistent.put (hcontexts : thread.contexts = (s.threads t).contexts) (hsound : thread.Sound) : Consistent (s.put t thread) := by
  have hsame : ∀ u, ((s.put t thread).threads u).contexts = (s.threads u).contexts := by
    intro u
    by_cases hu : u = t
    · rw [hu, threads_put, update_self, hcontexts]
    · rw [threads_put, update_of_ne hu]
  refine ⟨fun u => ?_, fun u => ?_, fun u => ?_, h.positive⟩
  · by_cases hu : u = t
    · rw [hu, threads_put, update_self]
      exact hsound
    · rw [threads_put, update_of_ne hu]
      exact h.sound u
  · rw [hsame u]
    exact h.lock u
  · rw [hsame u]
    exact h.tuning u

end

/-- Leaving contexts leaves each of them. -/
theorem balanced_map_leave : Balanced (contexts.map fun _ => Item.leave) contexts.length := by
  induction contexts with
  | nil => rfl
  | cons context contexts ih => exact ih

theorem Thread.Sound.raise (h : Thread.Sound ⟨program, contexts, suspensions⟩) :
    Thread.Sound ⟨contexts.map fun _ => .leave, contexts, suspensions⟩ := by
  have honly : ∀ item ∈ contexts.map fun _ => Item.leave, item = .leave := by
    intro item hitem
    obtain ⟨_, _, rfl⟩ := List.mem_map.mp hitem
    rfl
  have hacquire : (contexts.map fun _ => Item.leave).count .acquire = 0 :=
    List.count_eq_zero.mpr fun hmem => nomatch honly _ hmem
  refine ⟨balanced_map_leave, ?_, (fun hhold => nomatch honly _ hhold), fun item hitem => ?_⟩
  · have honce := h.once
    dsimp only at honce ⊢
    omega
  · rw [honly item (List.mem_of_mem_tail hitem)]
    rfl

/-- The locks know their holders after every step. -/
theorem Consistent.step {a : Action ι} (h : Consistent s) (hstep : session.step s a = some s') : Consistent s' := by
  cases a with
  | go => exact h.go hstep
  | raise t =>
    simp only [Session.step] at hstep
    split_ifs at hstep
    cases hstep
    exact h.put rfl (h.sound t).raise
  | call t call =>
    simp only [Session.step] at hstep
    split_ifs at hstep with hidle
    cases hstep
    refine h.put rfl ?_
    rw [h.contexts_eq_nil hidle.1]
    exact call.sound

theorem consistent_start : Consistent (session.start ι) where
  sound := fun _ => ⟨rfl, Nat.zero_le 1, (fun h => nomatch h), fun _ h => nomatch h⟩
  lock := fun _ => rfl
  tuning := fun _ => rfl
  positive := fun _ _ h => nomatch h

end SparkRing.SessionLocks
