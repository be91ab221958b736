import SparkRing.DeployKnowledge

/-!
# A reviewed plan is never applied twice or out of order

Every step of a call keeps what receipts and calls know, whatever the commands come to and
wherever the process ends. A changing action is issued at most once over all calls.
-/

namespace SparkRing.Deploy

open OrderedDict TransitionSystem
open List (getElem?_map mem_cons_self)
open Worker (finished noConfusion)

variable {plan : Plan} {s t : State} {call : Call} {pc : Pc} {phase : Phase} {action : Action} {key : String} {i j k next : ℕ}
  {state : ActionState} {noted : Note} {event : Event} {result : Option Result} {ok : Bool} {workers : List (ℕ × Worker)}
  {worker worker' : Worker} {disk : String → Option ActionState} {answer : Except String Unit} {todo : List ℕ}

/-- What the receipt of a call tells. -/
def Call.memory (call : Call) (key : String) : Option ActionState := call.receipt.actions.get? key

theorem memory_mark : (call.mark phase action state).memory key = if key = actionKey phase action then some state else call.memory key :=
  Dict.get?_set

theorem memory_mark_self : (call.mark phase action state).memory (actionKey phase action) = some state := by
  rw [memory_mark, if_pos rfl]

theorem memory_mark_of_ne (h : key ≠ actionKey phase action) : (call.mark phase action state).memory key = call.memory key := by
  rw [memory_mark, if_neg h]

section

variable (h : Inv plan s)

include h

theorem Inv.finish : Inv plan (s.finish answer) :=
  ⟨h.orderly, h.disk, h.complete, nofun⟩

theorem Inv.goto (hcall : s.process = some call) (hpc : PcOk plan s.log s.known call.memory call.id pc) :
    Inv plan (s.goto call pc) := { h with
  process _ hcall' := by
    cases hcall'
    have hok := h.process call hcall
    exact ⟨hok.opened, hok.permitted, hok.receipt, hok.incomplete, hpc⟩ }

/-- Something is noted that issues nothing. -/
theorem Inv.note (hnoted : ∀ call i j, noted ≠ .issued call i j) (hallowed : Allowed plan s.log noted) : Inv plan (s.note noted) where
  orderly := hallowed.orderly h.orderly
  disk := h.disk.mono (grows_note hnoted)
  complete receipt hreceipt hcomplete := (h.complete receipt hreceipt hcomplete).imp fun _ => List.mem_cons_of_mem _
  process call hcall := by
    have hok := h.process call hcall
    have hgrows : Grows plan s.log (noted :: s.log) := grows_note hnoted
    exact ⟨hgrows.sub _ hok.opened, hok.permitted, hok.receipt.mono hgrows, hok.incomplete, hok.pc.mono hgrows⟩

/-- The receipt of a call is saved, and the call goes on. -/
theorem Inv.saveGoto (call : Call) (hopened : .opened call.id call.permissions ∈ s.log)
    (hpermitted : ∀ i j phase action, plan.action? i j = some (phase, action) → call.permissions.refuse action = none)
    (hreceipt : ReceiptOk plan s.log call.memory) (hincomplete : call.receipt.complete = false)
    (hpc : PcOk plan s.log call.memory call.memory call.id pc) : Inv plan ((s.save call.receipt).goto call pc) := { h with
  disk := hreceipt
  complete _ hdisk hcomplete := by
    cases hdisk
    exact absurd (hincomplete.symm.trans hcomplete) Bool.false_ne_true
  process _ hcall' := by
    cases hcall'
    exact ⟨hopened, hpermitted, hreceipt, hincomplete, hpc⟩ }

theorem Inv.saveFinish (hcall : s.process = some call) : Inv plan ((s.save call.receipt).finish answer) := { h with
  disk := (h.process call hcall).receipt
  complete _ hdisk hcomplete := by
    cases hdisk
    exact absurd ((h.process call hcall).incomplete.symm.trans hcomplete) Bool.false_ne_true
  process := nofun }

/-- A controller calls. -/
theorem Inv.start {resume : Bool} {permissions : Permissions} {approval : String} :
    Inv plan (start plan s resume permissions approval) := by
  unfold Deploy.start
  split
  · refine ⟨h.orderly, h.disk, h.complete, fun call hcall => ?_⟩
    have hok := h.process call hcall
    exact ⟨hok.opened, hok.permitted, hok.receipt, hok.incomplete, hok.pc⟩
  split
  · exact h.finish
  split
  · exact h.finish
  next hpermitted =>
    have hnote : Inv plan (s.note (.opened s.calls permissions)) := h.note (fun _ _ _ => Note.noConfusion) trivial
    have hbegin : ∀ receipt : Receipt, ReceiptOk plan (s.note (.opened s.calls permissions)).log (receipt.actions.get? ·) →
        Inv plan { s.note (.opened s.calls permissions) with
          process := some ⟨s.calls, permissions, { receipt with complete := false }, .opening⟩, calls := s.calls + 1 } := by
      intro receipt hreceipt
      refine ⟨hnote.orderly, hnote.disk, hnote.complete, ?_⟩
      rintro _ ⟨⟩
      refine ⟨mem_cons_self, fun i j phase action haction => ?_, hreceipt, rfl, trivial⟩
      exact List.findSome?_eq_none_iff.mp hpermitted action (mem_actions haction)
    split
    next hnone =>
      split
      · exact h.finish
      refine hbegin (Receipt.fresh plan) ⟨nofun, fun key _ => ?_⟩
      refine hnote.disk.blank key (.inl ?_)
      rw [State.known, State.note, hnone, Option.bind_none]
    next receipt hsome =>
      split
      · exact h.finish
      split
      · exact h.finish
      have hdisk := hnote.disk
      unfold State.known State.note at hdisk
      rw [hsome] at hdisk
      exact hbegin receipt hdisk

end

/-- An action that nothing is known of is marked. -/
theorem ReceiptOk.mark (h : ReceiptOk plan s.log call.memory)
    (hrecorded : state = .succeeded → ∃ id, .recorded id (actionKey phase action) ∈ s.log)
    (hfailed : state = .failed → Fresh plan s.log (actionKey phase action)) :
    ReceiptOk plan s.log (call.mark phase action state).memory where
  recorded key hkey := by
    by_cases hsame : key = actionKey phase action
    · subst hsame
      rw [memory_mark_self, Option.some.injEq] at hkey
      exact hrecorded hkey
    · exact h.recorded key (memory_mark_of_ne hsame ▸ hkey)
  blank key hblank := by
    by_cases hsame : key = actionKey phase action
    · subst hsame
      rw [memory_mark_self] at hblank
      rcases hblank with hno | hfail
      · cases hno
      · exact hfailed (Option.some.inj hfail)
    · exact h.blank key (memory_mark_of_ne hsame ▸ hblank)

variable {log : List Note}

/-- The next action of a phase is marked. -/
theorem MarkedUpTo.snoc (h : MarkedUpTo plan log call.memory call.id i j todo)
    (haction : plan.action? i j = some (phase, action)) (hpassed : Passed log call.id i j action)
    (hfresh : Fresh plan log (actionKey phase action)) :
    MarkedUpTo plan log (call.mark phase action .running).memory call.id i (j + 1) (todo ++ [j]) where
  each j' hj phase' action' haction' := by
    rcases Nat.lt_succ_iff_lt_or_eq.mp hj with hlt | rfl
    · refine (h.each j' hlt phase' action' haction').imp (fun ⟨hmem, hold, hrunning, hfresh'⟩ => ?_) fun ⟨hnot, hrechecked⟩ => ⟨?_, hrechecked⟩
      · refine ⟨List.mem_append_left _ hmem, hold, ?_, hfresh'⟩
        rw [memory_mark_of_ne fun hkey => hlt.ne (eq_of_actionKey haction' haction hkey)]
        exact hrunning
      · exact List.not_mem_append hnot fun hmem => hlt.ne (List.mem_singleton.mp hmem)
    · cases haction.symm.trans haction'
      exact .inl ⟨List.mem_append_right _ mem_cons_self, hpassed, memory_mark_self, hfresh⟩
  listed j' hmem := by
    rcases List.mem_append.mp hmem with hold | hnew
    · exact ⟨(h.listed j' hold).1.trans (Nat.lt_succ_self j), (h.listed j' hold).2⟩
    · obtain rfl := List.mem_singleton.mp hnew
      exact ⟨Nat.lt_succ_self _, haction ▸ rfl⟩
  nodup := by
    refine List.nodup_append'.mpr ⟨h.nodup, List.nodup_singleton j, fun j' hold hnew => ?_⟩
    obtain rfl := List.mem_singleton.mp hnew
    exact (h.listed _ hold).1.false

variable {id : ℕ}

/-- The marks are saved, and every marked action waits for a worker. -/
theorem MarkedUpTo.pool {memory : String → Option ActionState}
    (h : MarkedUpTo plan log memory id i j todo) (hlast : ∀ j' ≥ j, plan.action? i j' = none) :
    PoolOk plan log memory memory id i (todo.map fun j => (j, .waiting)) := by
  have hfst : (todo.map fun j => (j, Worker.waiting)).map Prod.fst = todo := by
    rw [List.map_map]
    exact List.map_id _
  have hlt : ∀ j' phase action, plan.action? i j' = some (phase, action) → j' < j := by
    intro j' phase action haction
    by_contra hle
    rw [hlast j' (Nat.le_of_not_lt hle)] at haction
    cases haction
  constructor
  case nodup => exact hfst.symm ▸ h.nodup
  case each =>
    intro j' phase action haction
    rw [hfst]
    exact (h.each j' (hlt j' phase action haction) phase action haction).imp (fun hmarked => ⟨hmarked.1, hmarked.2.1⟩) And.right
  case worker =>
    intro k j' worker hk
    rw [getElem?_map] at hk
    obtain ⟨j'', hmem, heq⟩ := Option.map_eq_some_iff.mp hk
    cases heq
    have hlisted := h.listed j' (List.mem_of_getElem? hmem)
    obtain ⟨⟨phase, action⟩, haction⟩ := Option.isSome_iff_exists.mp hlisted.2
    refine ⟨phase, action, haction, ?_⟩
    rcases h.each j' hlisted.1 phase action haction with ⟨-, -, hrunning, hfresh⟩ | ⟨hnot, -⟩
    · exact ⟨fun _ => hfresh, fun _ => hfresh, fun _ => ⟨hrunning, hrunning⟩, noConfusion, noConfusion⟩
    · exact absurd (List.mem_of_getElem? hmem) hnot

/-- All results were recorded as succeeded, so the phase is done. -/
theorem PoolOk.done {memory : String → Option ActionState}
    (h : PoolOk plan log disk memory id i workers) (hcollected : Collected plan log id i workers next)
    (hend : workers[next]? = none) (hall : workers.all fun worker => worker.2 = .finished .succeeded) : PhaseDone plan log id i := by
  intro j phase action haction
  rcases h.each j phase action haction with ⟨hmem, -⟩ | hrechecked
  · obtain ⟨⟨j', worker⟩, hworker, rfl⟩ := List.mem_map.mp hmem
    obtain ⟨k, hk⟩ := List.mem_iff_getElem?.mp hworker
    have hsucceeded : worker = .finished .succeeded := of_decide_eq_true (List.all_eq_true.mp hall _ hworker)
    have hlt : k < next := (List.getElem?_eq_some_iff.mp hk).1.trans_le (List.getElem?_eq_none_iff.mp hend)
    obtain ⟨phase', action', haction', hok⟩ := h.worker k j' worker hk
    exact ⟨.inl (hok.succeeded hsucceeded), .inl ((hcollected k hlt j' worker hk).2 phase action haction hsucceeded)⟩
  · exact ⟨.inr hrechecked.1, .inr ⟨hrechecked.2, hrechecked.1⟩⟩

/-- The next result is recorded. -/
theorem PoolOk.collect (h : PoolOk plan log disk call.memory call.id i workers) (hnext : workers[next]? = some (j, .finished state))
    (haction : plan.action? i j = some (phase, action)) :
    PoolOk plan log (call.mark phase action state).memory (call.mark phase action state).memory call.id i workers := { h with
  worker k j' worker hk := by
    obtain ⟨phase', action', haction', hok⟩ := h.worker k j' worker hk
    refine ⟨phase', action', haction', hok.waiting, hok.readOnly, fun hopen => ?_, hok.failed, hok.succeeded⟩
    have hne : actionKey phase' action' ≠ actionKey phase action := by
      intro hkey
      obtain rfl := eq_of_actionKey haction' haction hkey
      have hlt : k < (workers.map Prod.fst).length := by
        rw [List.length_map]
        exact (List.getElem?_eq_some_iff.mp hk).1
      obtain rfl : k = next := (List.getElem?_inj hlt h.nodup).mp (by rw [getElem?_map, getElem?_map, hk, hnext]; rfl)
      cases hk.symm.trans hnext
      exact hopen state rfl
    rw [memory_mark_of_ne hne]
    exact ⟨(hok.marked hopen).1, (hok.marked hopen).1⟩ }

theorem Collected.snoc {id : ℕ} (h : Collected plan log id i workers next)
    (hnext : workers[next]? = some (j, .finished state)) (haction : plan.action? i j = some (phase, action))
    (hrecorded : state = .succeeded → .recorded id (actionKey phase action) ∈ log) : Collected plan log id i workers (next + 1) := by
  intro k hk j' worker hworker
  rcases Nat.lt_succ_iff_lt_or_eq.mp hk with hlt | rfl
  · exact h k hlt j' worker hworker
  cases hnext.symm.trans hworker
  refine ⟨⟨state, rfl⟩, fun phase' action' haction' hsucceeded => ?_⟩
  cases haction.symm.trans haction'
  exact hrecorded (finished.inj hsucceeded)

/-- The call goes on without a command. -/
theorem Inv.advance (h : Inv plan s) (hcall : s.process = some call) (hstep : advance plan s call ok = some t) : Inv plan t := by
  have hok := h.process call hcall
  have hpc := hok.pc
  unfold Deploy.advance at hstep
  split at hstep
  next hat =>
    split at hstep
    · cases hstep
      exact h.saveGoto call hok.opened hok.permitted hok.receipt hok.incomplete fun i hi => absurd hi (Nat.not_lt_zero i)
    · cases hstep
      exact h.finish
  next i hat =>
    rw [hat] at hpc
    split at hstep
    next hnone =>
      cases hstep
      refine h.goto hcall fun i' => ?_
      by_cases hlt : i' < i
      · exact hpc i' hlt
      intro j phase action haction
      rw [action?_none_of_phases hnone (Nat.le_of_not_lt hlt)] at haction
      cases haction
    · split at hstep
      · cases hstep
        exact h.finish
      · cases hstep
        exact h.goto hcall ⟨hpc, fun j hj => absurd hj (Nat.not_lt_zero j), fun c hc => absurd hc (Nat.not_lt_zero c)⟩
  next i j c hat =>
    rw [hat] at hpc
    obtain ⟨hbefore, hclear, hpassed⟩ := hpc
    have hnext : Clear plan s.log call.memory call.id i j → ∀ j' < j + 1, Clear plan s.log call.memory call.id i j' := by
      intro hj j' hj'
      rcases Nat.lt_succ_iff_lt_or_eq.mp hj' with hlt | rfl
      · exact hclear j' hlt
      · exact hj
    split at hstep
    next hnone =>
      cases hstep
      refine h.goto hcall ⟨hbefore, fun j' _ => ?_, ?_⟩
      · by_cases hlt : j' < j
        · exact hclear j' hlt
        intro phase action haction
        rw [action?_none_of_le hnone (Nat.le_of_not_lt hlt)] at haction
        cases haction
      · exact ⟨fun j' hj' => absurd hj' (Nat.not_lt_zero j'), fun _ hno => (by cases hno), List.nodup_nil⟩
    next phase action haction =>
      split at hstep
      · cases hstep
        exact h.finish
      · cases hstep
        exact h.finish
      next hsucceeded =>
        cases hstep
        refine h.goto hcall ⟨hbefore, hnext fun phase' action' haction' => ?_, fun c hc => absurd hc (Nat.not_lt_zero c)⟩
        cases haction.symm.trans haction'
        exact .inl hsucceeded
      next hrunning huncertain hsucceeded =>
        split at hstep
        next hchecked =>
          cases hstep
          refine h.goto hcall ⟨hbefore, hnext fun phase' action' haction' => ?_, fun c hc => absurd hc (Nat.not_lt_zero c)⟩
          cases haction.symm.trans haction'
          refine .inr ⟨?_, fun c' hc' => hpassed c' (hc'.trans_le hchecked)⟩
          change Blank (call.stateOf? phase action)
          cases hstate : call.stateOf? phase action with
          | none => exact .inl rfl
          | some state =>
            cases state with
            | running => exact absurd hstate hrunning
            | uncertain => exact absurd hstate huncertain
            | succeeded => exact absurd hstate hsucceeded
            | failed => exact .inr rfl
        · cases hstep
  next i j todo hat =>
    rw [hat] at hpc
    obtain ⟨hbefore, hclear, hmarked⟩ := hpc
    split at hstep
    next hnone =>
      cases hstep
      exact h.goto hcall ⟨hbefore, j, hnone, fun j' hj' => action?_none_of_le hnone hj', hmarked⟩
    next phase action haction =>
      obtain ⟨hnot, ⟨⟩⟩ := Option.ite_none_left_eq_some.mp hstep
      obtain ⟨hblank, hpassed⟩ := (hclear j le_rfl phase action haction).resolve_left hnot
      have hfresh := hok.receipt.blank _ hblank
      refine ⟨h.orderly, h.disk, h.complete, ?_⟩
      rintro _ ⟨⟩
      refine ⟨hok.opened, hok.permitted, ?_, hok.incomplete, hbefore, fun j' hj' phase' action' haction' => ?_,
        hmarked.snoc haction hpassed hfresh⟩
      · exact ReceiptOk.mark hok.receipt (fun hno => ActionState.noConfusion hno) fun hno => ActionState.noConfusion hno
      have hkey : actionKey phase' action' ≠ actionKey phase action := fun heq =>
        (Nat.lt_of_succ_le hj').ne' (eq_of_actionKey haction' haction heq)
      change (call.mark phase action .running).memory _ = _ ∨ Blank ((call.mark phase action .running).memory _) ∧ _
      rw [memory_mark_of_ne hkey]
      exact hclear j' (Nat.le_of_succ_le hj') phase' action' haction'
  next i todo hat =>
    rw [hat] at hpc
    obtain ⟨hbefore, j, -, hlast, hmarked⟩ := hpc
    split at hstep
    · cases hstep
      exact h.saveGoto call hok.opened hok.permitted hok.receipt hok.incomplete
        ⟨hbefore, hmarked.pool hlast, fun k hk => absurd hk (Nat.not_lt_zero k)⟩
    · cases hstep
      exact h.finish
  next i workers next hat =>
    rw [hat] at hpc
    obtain ⟨hbefore, hpool, hcollected⟩ := hpc
    split at hstep
    next hend =>
      split at hstep
      next hall =>
        cases hstep
        refine h.goto hcall fun i' hi' => ?_
        rcases Nat.lt_succ_iff_lt_or_eq.mp hi' with hlt | rfl
        · exact hbefore i' hlt
        · exact hpool.done hcollected hend hall
      · cases hstep
        exact h.finish
    next j state hnext =>
      split at hstep
      · cases hstep
      next phase action haction =>
        split at hstep
        · cases hstep
          obtain ⟨phase', action', haction', hworker⟩ := hpool.worker next j _ hnext
          cases haction.symm.trans haction'
          have hfailed : state = .failed → Fresh plan s.log (actionKey phase action) := fun hfail =>
            hworker.readOnly (hworker.failed (hfail ▸ rfl))
          split_ifs with hsucceeded
          · have hnote : Inv plan (s.note (.recorded call.id (actionKey phase action))) := h.note (fun _ _ _ => Note.noConfusion) trivial
            have hok' := hnote.process call hcall
            have hgrows : Grows plan s.log (.recorded call.id (actionKey phase action) :: s.log) := grows_note fun _ _ _ => Note.noConfusion
            refine hnote.saveGoto (call.mark phase action state) hok'.opened hok.permitted ?_ hok.incomplete
              ⟨hbefore.mono hgrows.sub, (hpool.mono hgrows).collect hnext haction,
                (hcollected.mono hgrows.sub).snoc hnext haction fun _ => mem_cons_self⟩
            exact ReceiptOk.mark hok'.receipt (fun _ => ⟨call.id, mem_cons_self⟩) fun hfail => hgrows.fresh _ (hfailed hfail)
          refine h.saveGoto (call.mark phase action state) hok.opened hok.permitted ?_ hok.incomplete
            ⟨hbefore, hpool.collect hnext haction, hcollected.snoc hnext haction fun hyes => absurd hyes hsucceeded⟩
          exact ReceiptOk.mark hok.receipt (fun hyes => absurd hyes hsucceeded) hfailed
        · cases hstep
          exact h.goto hcall ⟨hbefore, hpool⟩
    · cases hstep
      exact h.goto hcall ⟨hbefore, hpool⟩
    · cases hstep
  next i workers message hat =>
    split at hstep
    · cases hstep
    · cases hstep
      exact h.finish
  next hat =>
    rw [hat] at hpc
    split at hstep
    · cases hstep
      have hnote : Inv plan (s.note (.completed call.id)) := h.note (fun _ _ _ => Note.noConfusion)
        fun i j phase action haction => (hpc i j phase action haction).1
      exact ⟨hnote.orderly, (hnote.process call hcall).receipt, fun _ _ _ => ⟨call.id, mem_cons_self⟩, fun _ hp => by cases hp⟩
    · cases hstep
      exact h.finish

/-- A command of the call itself gives a result or raises. -/
theorem Inv.ask (h : Inv plan s) (hcall : s.process = some call) (hstep : ask plan s call result ok = some t) : Inv plan t := by
  have hok := h.process call hcall
  have hpc := hok.pc
  have hfail : ∀ answer failure, Inv plan (if ok then (s.save call.receipt).finish answer else s.finish failure) := by
    intro answer failure
    split
    · exact h.saveFinish hcall
    · exact h.finish
  unfold Deploy.ask at hstep
  split at hstep
  next i j c hat =>
    rw [hat] at hpc
    obtain ⟨hbefore, hclear, hpassed⟩ := hpc
    split at hstep
    · cases hstep
    next phase action haction =>
      obtain ⟨-, hstep⟩ := Option.ite_none_right_eq_some.mp hstep
      split at hstep
      · cases hstep
      · cases hstep
        exact h.finish
      split at hstep
      · cases hstep
        have hnote : Inv plan (s.note (.passed call.id i j c)) := h.note (fun _ _ _ => Note.noConfusion) trivial
        have hgrows : Grows plan s.log (.passed call.id i j c :: s.log) := grows_note fun _ _ _ => Note.noConfusion
        refine hnote.goto hcall ⟨hbefore.mono hgrows.sub, fun j' hj' => (hclear j' hj').mono hgrows.sub, fun c' hc' => ?_⟩
        rcases Nat.lt_succ_iff_lt_or_eq.mp hc' with hlt | rfl
        · exact hgrows.sub _ (hpassed c' hlt)
        · exact mem_cons_self
      · cases hstep
        exact hfail _ _
  next i j todo hat =>
    rw [hat] at hpc
    obtain ⟨hbefore, hclear, hmarked⟩ := hpc
    split at hstep
    · cases hstep
    next phase action haction =>
      split at hstep
      next hsucceeded =>
        split at hstep
        · cases hstep
          exact h.finish
        split at hstep
        · split at hstep
          · cases hstep
            have hnote : Inv plan (s.note (.reverified call.id i j)) := h.note (fun _ _ _ => Note.noConfusion) trivial
            have hgrows : Grows plan s.log (.reverified call.id i j :: s.log) := grows_note fun _ _ _ => Note.noConfusion
            have hok' := hnote.process call hcall
            refine hnote.saveGoto call hok'.opened hok.permitted hok'.receipt hok.incomplete
              ⟨hbefore.mono hgrows.sub, fun j' hj' => (hclear j' (Nat.le_of_succ_le hj')).mono hgrows.sub, ?_⟩
            have hold := hmarked.mono hgrows
            refine ⟨fun j' hj' phase' action' haction' => ?_, fun j' hmem => ?_, hold.nodup⟩
            · rcases Nat.lt_succ_iff_lt_or_eq.mp hj' with hlt | rfl
              · exact hold.each j' hlt phase' action' haction'
              · cases haction.symm.trans haction'
                exact .inr ⟨fun hmem => (hold.listed _ hmem).1.false, mem_cons_self, hok'.receipt.recorded _ hsucceeded⟩
            · exact ⟨(hold.listed j' hmem).1.trans (Nat.lt_succ_self j), (hold.listed j' hmem).2⟩
          · cases hstep
            exact h.finish
        · cases hstep
          exact hfail _ _
      · cases hstep
  · cases hstep

/-- A pool, and what a call knows of it. -/
theorem poolOk_of_pool {memory : String → Option ActionState} (h : PcOk plan log disk memory id pc)
    (hpool : pc.pool? = some (i, workers)) : Before plan log id i ∧ PoolOk plan log disk memory id i workers := by
  cases pc with
  | applying =>
    cases hpool
    exact ⟨h.1, h.2.1⟩
  | draining =>
    cases hpool
    exact h
  | _ => cases hpool

/-- A worker that has not ended goes on. -/
theorem pcOk_withPool {memory : String → Option ActionState} (h : PcOk plan log disk memory id pc)
    (hpool : pc.pool? = some (i, workers)) (hk : workers[k]? = some (j, worker)) (hopen : ∀ state, worker ≠ .finished state)
    (haction : plan.action? i j = some (phase, action)) (hworker' : WorkerOk plan log disk memory id i j phase action worker') :
    PcOk plan log disk memory id (pc.withPool (workers.set k (j, worker'))) := by
  cases pc with
  | applying =>
    cases hpool
    exact ⟨h.1, h.2.1.set hk haction hworker', h.2.2.set hk hopen⟩
  | draining =>
    cases hpool
    exact ⟨h.1, h.2.set hk haction hworker'⟩
  | _ => cases hpool

/-- A worker of a pool issues the command of its action, the others stay. -/
theorem PoolOk.issue {memory : String → Option ActionState}
    (h : PoolOk plan log disk memory id i workers) (hk : workers[k]? = some (j, .waiting))
    (haction : plan.action? i j = some (phase, action)) :
    PoolOk plan (.issued id i j :: log) disk memory id i (workers.set k (j, .running)) := by
  obtain ⟨phase', action', haction', hworker⟩ := h.worker k j _ hk
  cases haction.symm.trans haction'
  have hsub : ∀ note ∈ log, note ∈ Note.issued id i j :: log := fun _ => List.mem_cons_of_mem _
  have hothers : ∀ (l j' : ℕ) (worker : Worker), l ≠ k → workers[l]? = some (j', worker) →
      ∃ phase action, plan.action? i j' = some (phase, action) ∧
        WorkerOk plan (.issued id i j :: log) disk memory id i j' phase action worker := by
    intro l j' worker hne hl
    obtain ⟨phase', action', haction', hok⟩ := h.worker l j' worker hl
    have hkey : actionKey phase action = actionKey phase' action' → action.risk = .readOnly := by
      intro heq
      obtain rfl := eq_of_actionKey haction haction' heq
      have hlt : l < (workers.map Prod.fst).length := by
        rw [List.length_map]
        exact (List.getElem?_eq_some_iff.mp hl).1
      exact absurd ((List.getElem?_inj hlt h.nodup).mp (by rw [getElem?_map, getElem?_map, hk, hl]; rfl)) hne
    exact ⟨phase', action', haction', fun hwaiting => (hok.waiting hwaiting).issued haction hkey,
      fun hrisk => (hok.readOnly hrisk).issued haction hkey, hok.marked, hok.failed, fun hsucceeded => hsub _ (hok.succeeded hsucceeded)⟩
  have hown : WorkerOk plan (.issued id i j :: log) disk memory id i j phase action .running :=
    ⟨noConfusion, fun hrisk => (hworker.readOnly hrisk).issued haction fun _ => hrisk,
      fun _ => hworker.marked fun _ => noConfusion, noConfusion, noConfusion⟩
  have hfst : (workers.set k (j, .running)).map Prod.fst = workers.map Prod.fst := map_fst_set hk
  constructor
  case nodup => exact hfst ▸ h.nodup
  case each =>
    intro j' phase' action' haction'
    rw [hfst]
    exact (h.each j' phase' action' haction').imp (fun hpool => ⟨hpool.1, hpool.2.mono hsub⟩) (Rechecked.mono hsub)
  case worker =>
    intro l j' worker hl
    rw [List.getElem?_set] at hl
    split at hl
    next heq =>
      rw [if_pos (List.getElem?_eq_some_iff.mp hk).1] at hl
      cases hl
      exact ⟨phase, action, haction, hown⟩
    next hne => exact hothers l j' worker (Ne.symm hne) hl

section

variable (h : Inv plan s)

include h

section

variable (hcall : s.process = some call)

include hcall

/-- A worker issues the command of its action. -/
theorem Inv.begin (hstep : begin s call k = some t) : Inv plan t := by
  have hok := h.process call hcall
  unfold Deploy.begin at hstep
  split at hstep
  · cases hstep
  next i workers hpool =>
    split at hstep
    next j hk =>
      split at hstep
      · cases hstep
        obtain ⟨hbefore, hpoolOk⟩ := poolOk_of_pool hok.pc hpool
        obtain ⟨phase, action, haction, hworker⟩ := hpoolOk.worker k j _ hk
        obtain ⟨hmemory, hdisk⟩ := hworker.marked fun _ => noConfusion
        have hsub : ∀ note ∈ s.log, note ∈ Note.issued call.id i j :: s.log := fun _ => List.mem_cons_of_mem _
        have hallowed : MayIssue plan s.log call.id i j := by
          refine ⟨⟨call.permissions, phase, action, hok.opened, haction, hok.permitted i j phase action haction⟩, ?_, ?_, ?_⟩
          · intro phase' action' haction' hrisk before
            cases haction.symm.trans haction'
            exact hworker.waiting rfl before i j phase action haction rfl hrisk
          · intro j' phase' action' haction'
            exact (hpoolOk.each j' phase' action' haction').symm.imp And.left And.right
          · intro i' hi' j' phase' action' haction'
            exact (hbefore i' hi' j' phase' action' haction').2
        have hpc : PcOk plan (.issued call.id i j :: s.log) s.known call.memory call.id
            (call.pc.withPool (workers.set k (j, .running))) := by
          have hpcs := hok.pc
          generalize call.pc = pc at hpool hpcs ⊢
          cases pc with
          | applying =>
            cases hpool
            exact ⟨hbefore.mono hsub, hpoolOk.issue hk haction, (hpcs.2.2.set hk fun _ => noConfusion).mono hsub⟩
          | draining =>
            cases hpool
            exact ⟨hbefore.mono hsub, hpoolOk.issue hk haction⟩
          | _ => cases hpool
        refine ⟨Allowed.orderly h.orderly hallowed, h.disk.issued haction hdisk,
          fun receipt hreceipt hcomplete => (h.complete receipt hreceipt hcomplete).imp fun _ => hsub _, ?_⟩
        rintro _ ⟨⟩
        exact ⟨hsub _ hok.opened, hok.permitted, hok.receipt.issued haction hmemory, hok.incomplete, hpc⟩
      · cases hstep
    · cases hstep

section

variable (hpool : call.pc.pool? = some (i, workers)) (hk : workers[k]? = some (j, worker)) (hopen : ∀ state, worker ≠ .finished state)

include hpool hk hopen

theorem Inv.endWorker (haction : plan.action? i j = some (phase, action)) (hfailed : state = .failed → action.risk = .readOnly) :
    Inv plan (s.endWorker call i workers k j state) := by
  obtain ⟨hbefore, hpoolOk⟩ := poolOk_of_pool (h.process call hcall).pc hpool
  obtain ⟨phase', action', haction', hworker⟩ := hpoolOk.worker k j _ hk
  cases haction.symm.trans haction'
  unfold State.endWorker
  split_ifs with hsucceeded
  · have hnote : Inv plan (s.note (.succeeded call.id i j)) := h.note (fun _ _ _ => Note.noConfusion) trivial
    have hgrows : Grows plan s.log (.succeeded call.id i j :: s.log) := grows_note fun _ _ _ => Note.noConfusion
    refine hnote.goto hcall (pcOk_withPool (hnote.process call hcall).pc hpool hk hopen haction ?_)
    exact ⟨noConfusion, fun hrisk => hgrows.fresh _ (hworker.readOnly hrisk), fun hno => absurd rfl (hno state),
      fun hfail => hfailed (finished.inj hfail), fun _ => mem_cons_self⟩
  refine h.goto hcall (pcOk_withPool (h.process call hcall).pc hpool hk hopen haction ?_)
  exact ⟨noConfusion, hworker.readOnly, fun hno => absurd rfl (hno state), fun hfail => hfailed (finished.inj hfail),
    fun hyes => absurd (finished.inj hyes) hsucceeded⟩

/-- A worker that issued a command goes on without ending its action. -/
theorem Inv.setWorker
    (hopen' : ∀ state, worker' ≠ .finished state) (hwaiting' : worker' ≠ .waiting) : Inv plan (s.setWorker call workers k j worker') := by
  obtain ⟨-, hpoolOk⟩ := poolOk_of_pool (h.process call hcall).pc hpool
  obtain ⟨phase, action, haction, hworker⟩ := hpoolOk.worker k j _ hk
  refine h.goto hcall (pcOk_withPool (h.process call hcall).pc hpool hk hopen haction ?_)
  exact ⟨fun hno => absurd hno hwaiting', hworker.readOnly, fun _ => hworker.marked hopen, fun hno => absurd hno (hopen' _),
    fun hno => absurd hno (hopen' _)⟩

end

/-- The command of an action gives a result or raises. -/
theorem Inv.reply (hstep : reply plan s call k result = some t) : Inv plan t := by
  unfold Deploy.reply at hstep
  split at hstep
  · cases hstep
  next i workers hpool =>
    split at hstep
    next j hk =>
      split at hstep
      · cases hstep
      · cases hstep
        exact h.setWorker hcall hpool hk (fun _ => noConfusion) (fun _ => noConfusion) noConfusion
      next phase action result haction =>
        split at hstep
        · cases hstep
          exact h.setWorker hcall hpool hk (fun _ => noConfusion) (fun _ => noConfusion) noConfusion
        cases hstep
        refine h.endWorker hcall hpool hk (fun _ => noConfusion) haction fun hfail => ?_
        by_contra hrisk
        exact stateOf_ne_failed hrisk hfail
    · cases hstep

/-- The verification of an action gives a result or raises. -/
theorem Inv.confirm (hstep : confirm plan s call k result = some t) : Inv plan t := by
  unfold Deploy.confirm at hstep
  split at hstep
  · cases hstep
  next i workers hpool =>
    split at hstep
    next j hk =>
      split at hstep
      · cases hstep
      · cases hstep
        exact h.setWorker hcall hpool hk (fun _ => noConfusion) (fun _ => noConfusion) noConfusion
      next check result hcheck =>
        cases hstep
        obtain ⟨⟨phase, action⟩, haction, -⟩ := Option.bind_eq_some_iff.mp hcheck
        refine h.endWorker hcall hpool hk (fun _ => noConfusion) haction fun hfail => ?_
        split at hfail
        · cases hfail
        · cases hfail
    · cases hstep

end

/-- Every event keeps the invariant. -/
theorem Inv.step (hstep : step plan s event = some t) : Inv plan t := by
  unfold Deploy.step at hstep
  split at hstep
  · cases hstep
    exact h.start
  · cases hstep
    exact ⟨h.orderly, h.disk, h.complete, nofun⟩
  next hcall => exact h.advance hcall hstep
  next hcall => exact h.ask hcall hstep
  next hcall => exact h.begin hcall hstep
  next hcall => exact h.reply hcall hstep
  next hcall => exact h.confirm hcall hstep
  · cases hstep

end

theorem inv_of_reachable (h : Reachable (step plan) Unrestricted init s) : Inv plan s := by
  refine h.invariant (Inv plan) ⟨?_, ⟨?_, ?_⟩, ?_, ?_⟩ fun _ _ _ _ hinv _ hstep => hinv.step hstep
  · intro note earlier hno
    exact absurd (List.suffix_nil.mp hno) (List.cons_ne_nil _ _)
  · exact nofun
  · exact fun _ _ _ _ _ _ _ _ _ _ hno => nomatch hno
  · exact nofun
  · exact nofun

/-- The command of an action was issued. -/
def Note.issues (i j : ℕ) : Note → Bool
  | .issued _ i' j' => i' = i ∧ j' = j
  | _ => false

/-- A changing action is issued at most once in an orderly log. -/
theorem Orderly.once (h : Orderly plan log) (haction : plan.action? i j = some (phase, action))
    (hrisk : action.risk ≠ .readOnly) : log.countP (Note.issues i j) ≤ 1 := by
  induction log with
  | nil => exact Nat.zero_le 1
  | cons note earlier ih =>
    have hearlier := ih fun note' earlier' hsuffix => h note' earlier' (hsuffix.trans (List.suffix_cons _ _))
    rw [List.countP_cons]
    split
    next hissues =>
      cases note with
      | issued call i' j' =>
        obtain ⟨rfl, rfl⟩ := of_decide_eq_true hissues
        have hfirst := (h _ _ List.suffix_rfl : MayIssue plan earlier call i' j').first phase action haction hrisk
        have hzero : earlier.countP (Note.issues i' j') = 0 := by
          rw [List.countP_eq_zero]
          intro other hother hissues'
          cases other with
          | issued before i'' j'' =>
            obtain ⟨rfl, rfl⟩ := of_decide_eq_true hissues'
            exact hfirst before hother
          | _ => cases hissues'
        omega
      | _ => cases hissues
    · omega

/-- A host is read, then two hosts are worked on side by side. -/
def twoPhases : Plan where
  phases := [⟨"a", [⟨"x", ["probe"], .readOnly, none, [⟨["ready"], none, none⟩]⟩]⟩,
    ⟨"b", [⟨"x", ["set"], .mutatesHost, some ⟨["get"], some "1", none⟩, []⟩, ⟨"y", ["probe"], .readOnly, none, []⟩]⟩]
  sha256 := "d"
  valid := by decide +kernel

/-- A command that succeeds and prints a line. -/
def succeeds : Option Result := some ⟨0, "1", none, false⟩

/-- The first phase is applied and the process ends; the next call resumes, and its workers answer in the other order. -/
def resumedRun : List Event :=
  [.start false ⟨false, false, false⟩ "d", .advance true, .advance true, .ask succeeds true, .advance true, .advance true, .advance true,
    .advance true, .advance true, .begin 0, .reply 0 succeeds, .advance true, .advance true, .crash,
    .start true ⟨false, false, false⟩ "d", .advance true, .advance true, .advance true, .advance true, .ask succeeds true, .advance true,
    .advance true, .advance true, .advance true, .advance true, .advance true, .advance true, .advance true, .advance true, .advance true,
    .advance true, .begin 0, .begin 1, .reply 1 succeeds, .reply 0 succeeds, .confirm 0 succeeds, .advance true, .advance true,
    .advance true, .advance true, .advance true]

/-- Whatever calls fail or end midway, the receipt on the disk never shows a changing action that was issued
as untouched or as failed, and shows only recorded actions as succeeded. -/
theorem issued_on_record (h : Reachable (step plan) Unrestricted init s) :
    (∀ call i j phase action, plan.action? i j = some (phase, action) → action.risk ≠ .readOnly → .issued call i j ∈ s.log →
      ∃ state, s.known (actionKey phase action) = some state ∧ state ≠ .failed) ∧
    ∀ key, s.known key = some .succeeded → ∃ call, .recorded call key ∈ s.log := by
  have hdisk := (inv_of_reachable h).disk
  refine ⟨fun call i j phase action haction hrisk hissued => ?_, hdisk.recorded⟩
  have hblank : ¬Blank (s.known (actionKey phase action)) := fun hblank =>
    hdisk.blank _ hblank call i j phase action haction rfl hrisk hissued
  obtain ⟨state, hstate⟩ := Option.ne_none_iff_exists'.mp fun hnone => hblank (.inl hnone)
  exact ⟨state, hstate, fun hfailed => hblank (.inr (hfailed ▸ hstate))⟩

theorem issued_on_record_resumed : ∃ s, Reachable (step twoPhases) Unrestricted init s ∧
    ∃ call, .recorded call "b:x" ∈ s.log := by
  obtain ⟨s, hs, hknown⟩ := Reachable.exists_of_runs (step twoPhases) init resumedRun
    (fun s => decide (s.known "b:x" = some .succeeded)) (by decide +kernel)
  exact ⟨s, hs, (issued_on_record hs).2 _ (of_decide_eq_true hknown)⟩

end SparkRing.Deploy
