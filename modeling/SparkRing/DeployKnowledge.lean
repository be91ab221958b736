import SparkRing.DeployTrace

/-!
# What calls know lasts

What a call knows survives every later event, and the issue of one action touches the key
of that action only.
-/

namespace SparkRing.Deploy

variable {plan : Plan} {log log' : List Note} {known disk memory : String → Option ActionState} {call i j j' k next : ℕ}
  {phase : Phase} {action : Action} {key : String} {note : Note} {todo : List ℕ} {workers : List (ℕ × Worker)} {worker : Worker} {pc : Pc}

/-- A later log, without an issue of a changing action that was fresh. -/
structure Grows (plan : Plan) (log log' : List Note) : Prop where
  /-- Everything noted stays. -/
  sub : ∀ note ∈ log, note ∈ log'
  fresh : ∀ key, Fresh plan log key → Fresh plan log' key

theorem grows_note (h : ∀ call i j, note ≠ .issued call i j) : Grows plan log (note :: log) where
  sub _ := List.mem_cons_of_mem note
  fresh _ hfresh call i j phase action haction hkey hrisk hmem := by
    rcases List.mem_cons.mp hmem with heq | hold
    · exact h call i j heq.symm
    · exact hfresh call i j phase action haction hkey hrisk hold

section

variable (hsub : ∀ note ∈ log, note ∈ log')

include hsub

theorem Completed.mono (h : Completed log call i j) : Completed log' call i j :=
  h.imp (hsub _) (hsub _)

theorem Settled.mono (h : Settled log call i j key) : Settled log' call i j key :=
  h.imp (hsub _) fun ⟨⟨before, hrecorded⟩, hverified⟩ => ⟨⟨before, hsub _ hrecorded⟩, hsub _ hverified⟩

theorem Passed.mono (h : Passed log call i j action) : Passed log' call i j action :=
  fun c hc => hsub _ (h c hc)

theorem PhaseDone.mono (h : PhaseDone plan log call i) : PhaseDone plan log' call i :=
  fun j phase action haction => ⟨(h j phase action haction).1.mono hsub, (h j phase action haction).2.mono hsub⟩

theorem Before.mono (h : Before plan log call i) : Before plan log' call i :=
  fun i' hi => (h i' hi).mono hsub

theorem Clear.mono (h : Clear plan log memory call i j) : Clear plan log' memory call i j :=
  fun phase action haction => (h phase action haction).imp id fun ⟨hblank, hpassed⟩ => ⟨hblank, hpassed.mono hsub⟩

theorem Rechecked.mono (h : Rechecked log call i j key) : Rechecked log' call i j key :=
  ⟨hsub _ h.1, h.2.imp fun _ => hsub _⟩

end

section

variable (hgrows : Grows plan log log')

include hgrows

theorem Marked.mono (h : Marked plan log memory call i j phase action) :
    Marked plan log' memory call i j phase action := ⟨h.1.mono hgrows.sub, h.2.1, hgrows.fresh _ h.2.2⟩

theorem MarkedUpTo.mono (h : MarkedUpTo plan log memory call i j todo) : MarkedUpTo plan log' memory call i j todo := { h with
  each j' hj phase action haction := (h.each j' hj phase action haction).imp (fun hmarked => ⟨hmarked.1, hmarked.2.mono hgrows⟩)
    fun hrechecked => ⟨hrechecked.1, hrechecked.2.mono hgrows.sub⟩ }

theorem WorkerOk.mono (h : WorkerOk plan log disk memory call i j phase action worker) :
    WorkerOk plan log' disk memory call i j phase action worker := { h with
  waiting hwaiting := hgrows.fresh _ (h.waiting hwaiting)
  readOnly hrisk := hgrows.fresh _ (h.readOnly hrisk)
  succeeded hsucceeded := hgrows.sub _ (h.succeeded hsucceeded) }

theorem PoolOk.mono (h : PoolOk plan log disk memory call i workers) : PoolOk plan log' disk memory call i workers := { h with
  each j phase action haction := (h.each j phase action haction).imp (fun hpool => ⟨hpool.1, hpool.2.mono hgrows.sub⟩)
    (Rechecked.mono hgrows.sub)
  worker k j worker hworker := by
    obtain ⟨phase, action, haction, hok⟩ := h.worker k j worker hworker
    exact ⟨phase, action, haction, hok.mono hgrows⟩ }

end

theorem Collected.mono (hsub : ∀ note ∈ log, note ∈ log') (h : Collected plan log call i workers next) :
    Collected plan log' call i workers next :=
  fun k hk j worker hworker => ⟨(h k hk j worker hworker).1,
    fun phase action haction hsucceeded => hsub _ ((h k hk j worker hworker).2 phase action haction hsucceeded)⟩

theorem ReceiptOk.mono (hgrows : Grows plan log log') (h : ReceiptOk plan log known) : ReceiptOk plan log' known where
  recorded key hkey := (h.recorded key hkey).imp fun _ => hgrows.sub _
  blank key hblank := hgrows.fresh _ (h.blank key hblank)

theorem PcOk.mono (hgrows : Grows plan log log') (h : PcOk plan log disk memory call pc) : PcOk plan log' disk memory call pc := by
  cases pc with
  | opening => trivial
  | phase => exact Before.mono hgrows.sub h
  | preflight => exact ⟨h.1.mono hgrows.sub, fun j' hj => (h.2.1 j' hj).mono hgrows.sub, fun c' hc => hgrows.sub _ (h.2.2 c' hc)⟩
  | marking => exact ⟨h.1.mono hgrows.sub, fun j' hj => (h.2.1 j' hj).mono hgrows.sub, h.2.2.mono hgrows⟩
  | saving =>
    obtain ⟨hbefore, j, hnone, hlast, hmarked⟩ := h
    exact ⟨hbefore.mono hgrows.sub, j, hnone, hlast, hmarked.mono hgrows⟩
  | applying => exact ⟨h.1.mono hgrows.sub, h.2.1.mono hgrows, h.2.2.mono hgrows.sub⟩
  | draining => exact ⟨h.1.mono hgrows.sub, h.2.mono hgrows⟩
  | finishing => exact fun i => (h i).mono hgrows.sub

theorem Allowed.orderly (horderly : Orderly plan log) (h : Allowed plan log note) : Orderly plan (note :: log) := by
  intro note' earlier hsuffix
  rcases List.suffix_cons_iff.mp hsuffix with heq | hold
  · cases heq
    exact h
  · exact horderly note' earlier hold

/-- The issue of an action leaves the keys of others fresh, and its own where it reads only. -/
theorem Fresh.issued (h : Fresh plan log key) (haction : plan.action? i j = some (phase, action))
    (hother : actionKey phase action = key → action.risk = .readOnly) : Fresh plan (.issued call i j :: log) key := by
  intro call' i' j' phase' action' haction' hkey hrisk hmem
  rcases List.mem_cons.mp hmem with heq | hold
  · cases heq
    cases haction.symm.trans haction'
    exact hrisk (hother hkey)
  · exact h call' i' j' phase' action' haction' hkey hrisk hold

theorem ReceiptOk.issued (h : ReceiptOk plan log known) (haction : plan.action? i j = some (phase, action))
    (hmarked : known (actionKey phase action) = some .running) : ReceiptOk plan (.issued call i j :: log) known where
  recorded key hkey := (h.recorded key hkey).imp fun _ => List.mem_cons_of_mem _
  blank key hblank := by
    refine (h.blank key hblank).issued haction fun hkey => ?_
    rw [← hkey, hmarked] at hblank
    rcases hblank with hno | hno
    · cases hno
    · cases hno

theorem action?_eq_some (h : plan.action? i j = some (phase, action)) : plan.phases[i]? = some phase ∧ phase.actions[j]? = some action := by
  obtain ⟨phase', hphase, haction⟩ := Option.bind_eq_some_iff.mp h
  obtain ⟨action', hmem, heq⟩ := Option.map_eq_some_iff.mp haction
  cases heq
  exact ⟨hphase, hmem⟩

/-- Two actions of a phase with one key are one. -/
theorem eq_of_actionKey {phase' : Phase} {action' : Action} (h : plan.action? i j = some (phase, action))
    (h' : plan.action? i j' = some (phase', action')) (hkey : actionKey phase action = actionKey phase' action') : j = j' := by
  obtain ⟨hphase, hmem⟩ := action?_eq_some h
  obtain ⟨hphase', hmem'⟩ := action?_eq_some h'
  cases hphase.symm.trans hphase'
  exact actionKey_inj (List.mem_of_getElem? hphase) hmem hmem' hkey

/-- After the last action of a phase there is none. -/
theorem action?_none_of_le (h : plan.action? i j = none) (hle : j ≤ j') : plan.action? i j' = none := by
  rw [Option.eq_none_iff_forall_ne_some]
  rintro ⟨phase, action⟩ haction
  obtain ⟨hphase, hmem⟩ := action?_eq_some haction
  have hlt : j < phase.actions.length := hle.trans_lt (List.getElem?_eq_some_iff.mp hmem).1
  rw [Plan.action?, hphase, Option.bind_some, List.getElem?_eq_getElem hlt] at h
  cases h

theorem action?_none_of_phases (h : plan.phases[i]? = none) {i' : ℕ} (hle : i ≤ i') : plan.action? i' j = none := by
  rw [List.getElem?_eq_none_iff] at h
  rw [Plan.action?, List.getElem?_eq_none_iff.mpr (h.trans hle), Option.bind_none]

theorem mem_actions (h : plan.action? i j = some (phase, action)) : action ∈ plan.phases.flatMap Phase.actions := by
  obtain ⟨hphase, hmem⟩ := action?_eq_some h
  exact List.mem_flatMap.mpr ⟨phase, List.mem_of_getElem? hphase, List.mem_of_getElem? hmem⟩

variable {worker' : Worker}

/-- A worker keeps its action. -/
theorem map_fst_set (hk : workers[k]? = some (j, worker)) : (workers.set k (j, worker')).map Prod.fst = workers.map Prod.fst := by
  rw [List.map_set]
  refine List.ext_getElem? fun l => ?_
  rw [List.getElem?_set, List.getElem?_map]
  split
  next heq =>
    subst heq
    rw [hk, List.length_map, if_pos (List.getElem?_eq_some_iff.mp hk).1]
    rfl
  · rfl

/-- A worker of a pool goes on, the others stay. -/
theorem PoolOk.set (h : PoolOk plan log disk memory call i workers) (hk : workers[k]? = some (j, worker))
    (haction : plan.action? i j = some (phase, action)) (hworker' : WorkerOk plan log disk memory call i j phase action worker') :
    PoolOk plan log disk memory call i (workers.set k (j, worker')) := by
  have hfst : (workers.set k (j, worker')).map Prod.fst = workers.map Prod.fst := map_fst_set hk
  constructor
  case nodup => exact hfst ▸ h.nodup
  case each => exact hfst ▸ h.each
  case worker =>
    intro l j' worker'' hl
    rw [List.getElem?_set] at hl
    split at hl
    next heq =>
      rw [if_pos (List.getElem?_eq_some_iff.mp hk).1] at hl
      cases hl
      exact ⟨phase, action, haction, hworker'⟩
    · exact h.worker l j' worker'' hl

/-- Workers that have not ended are not collected. -/
theorem Collected.set (h : Collected plan log call i workers next) (hk : workers[k]? = some (j, worker))
    (hopen : ∀ state, worker ≠ .finished state) : Collected plan log call i (workers.set k (j, worker')) next := by
  intro l hl j' worker'' hworker
  rw [List.getElem?_set] at hworker
  split at hworker
  next heq =>
    subst heq
    obtain ⟨state, hstate⟩ := (h k hl j worker hk).1
    exact absurd hstate (hopen state)
  · exact h l hl j' worker'' hworker

end SparkRing.Deploy
