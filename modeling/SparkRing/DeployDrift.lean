import SparkRing.DeploySafety

/-!
# Failures that mark no work

A call that finds drift saves its receipt and raises. The receipt may hold marks of this
phase whose commands were never issued, and the next call takes those for commands of an
unknown outcome. A history of the marks without a command tells which they are; calls that
never end between a saved mark and its command leave none.
-/

namespace SparkRing.Deploy

open TransitionSystem
open List (mem_cons_of_mem mem_filter mem_map mem_of_getElem?)

/-- A receipt tells of a command whose outcome is not known. -/
def Open (known : Option ActionState) : Prop := known = some .running ∨ known = some .uncertain

instance (known : Option ActionState) : Decidable (Open known) := inferInstanceAs (Decidable (_ ∨ _))

/-- The actions of a phase that are marked, or are to be, and wait for a worker. -/
def Pc.waiting : Pc → ℕ × List ℕ
  | .marking i _ todo | .saving i todo => (i, todo)
  | .applying i workers _ | .draining i workers _ => (i, (workers.filter fun worker => worker.2 = .waiting).map Prod.fst)
  | _ => (0, [])

/-- What their receipt records them under. -/
def Call.awaited (plan : Plan) (call : Call) : List String :=
  call.pc.waiting.2.filterMap fun j => (plan.action? call.pc.waiting.1 j).map fun action => actionKey action.1 action.2

/-- A deployment, with the actions marked as running whose command was not issued since. -/
structure Watched where
  /-- The receipt and the call. -/
  state : State
  /-- The marks without a command. -/
  unstarted : List String

/-- A mark is made without a command, and the command takes it off. -/
def unstartedAfter (plan : Plan) (call : Call) (event : Event) (unstarted : List String) : List String :=
  match event with
  | .advance _ =>
    match call.pc with
    | .marking i j _ =>
      match plan.action? i j with
      | some (phase, action) =>
        if call.stateOf? phase action = some .succeeded then unstarted else actionKey phase action :: unstarted
      | none => unstarted
    | _ => unstarted
  | .begin k =>
    match call.pc.pool?.bind fun pool => pool.2[k]?.bind fun worker => plan.action? pool.1 worker.1 with
    | some (phase, action) => unstarted.filter fun key => key ≠ actionKey phase action
    | none => unstarted
  | _ => unstarted

def watch (plan : Plan) (w : Watched) (event : Event) : Option Watched :=
  (step plan w.state event).map fun state =>
    ⟨state, match w.state.process with
      | some call => unstartedAfter plan call event w.unstarted
      | none => w.unstarted⟩

/-- An action was issued, and again since it was last marked. -/
def Started (plan : Plan) (w : Watched) (key : String) : Prop :=
  key ∉ w.unstarted ∧ ∃ call i j phase action, .issued call i j ∈ w.state.log ∧ plan.action? i j = some (phase, action) ∧
    actionKey phase action = key

/-- A step would end a call whose actions still wait: the process ends, the runner raises, a completed action does not
verify, a save fails or an error waited for the workers. -/
def Event.ends (plan : Plan) (call : Call) : Event → Bool
  | .crash | .ask none _ => true
  | .ask (some result) ok =>
    match call.pc with
    | .marking i j _ => (plan.action? i j).any fun action => !(verified result action.2.recheck && ok)
    | _ => false
  | .advance ok =>
    match call.pc with
    | .saving _ _ => !ok
    | .draining _ _ _ => true
    | _ => false
  | _ => false

/-- A failed verification saves the receipt with its marks. -/
def Event.saves : Event → Bool
  | .ask (some _) ok => ok
  | _ => false

/-- No call ends between a mark that reaches the disk and its command. -/
def Spared (plan : Plan) (w : Watched) (event : Event) : Prop := ∀ call ∈ w.state.process, event.ends plan call = true →
  ∀ key ∈ call.awaited plan, event.saves = false ∧ ¬Open (w.state.known key)

instance (plan : Plan) (w : Watched) (event : Event) : Decidable (Spared plan w event) :=
  inferInstanceAs (Decidable (∀ call ∈ w.state.process, event.ends plan call = true →
    ∀ key ∈ call.awaited plan, event.saves = false ∧ ¬Open (w.state.known key)))

section

variable {plan : Plan} {w w' : Watched} {call call' : Call} {s : State} {event : Event} {result : Option Result} {ok : Bool} {k : ℕ}
  {unstarted : List String} {key : String} {answer : Except String Unit} {action : Action} {state : ActionState} {phase : Phase}

theorem mem_awaited : key ∈ call.awaited plan ↔ ∃ j ∈ call.pc.waiting.2, ∃ action, plan.action? call.pc.waiting.1 j = some action ∧
    actionKey action.1 action.2 = key := by
  rw [Call.awaited, List.mem_filterMap]
  simp only [Option.map_eq_some_iff]

/-- What a call remembers, or the disk, of commands. -/
structure Track (plan : Plan) (w : Watched) : Prop where
  /-- What the disk leaves open was started, or waits. -/
  disk : ∀ key, Open (w.state.known key) → Started plan w key ∨ ∃ call, w.state.process = some call ∧ key ∈ call.awaited plan
  /-- What a receipt in memory leaves open was started, or waits. -/
  memory : ∀ call, w.state.process = some call → ∀ key, Open (call.receipt.actions.get? key) →
    Started plan w key ∨ key ∈ call.awaited plan
  /-- A worker that no longer waits has started its action. -/
  workers : ∀ call, w.state.process = some call → ∀ i workers, call.pc.pool? = some (i, workers) → ∀ j worker, (j, worker) ∈ workers →
    worker ≠ .waiting → ∀ action, plan.action? i j = some action → Started plan w (actionKey action.1 action.2)

/-- No call is in progress: what the disk leaves open was started. -/
theorem Track.idle (h : Track plan w) (hidle : w.state.process = none) (hopen : Open (w.state.known key)) : Started plan w key := by
  rcases h.disk key hopen with hstart | ⟨call, hcall, -⟩
  · exact hstart
  · rw [hidle] at hcall
    cases hcall

theorem Track.of_idle (hidle : w.state.process = none) (hdisk : ∀ key, Open (w.state.known key) → Started plan w key) : Track plan w where
  disk key hopen := .inl (hdisk key hopen)
  memory _ hcall := nomatch hidle.symm.trans hcall
  workers _ hcall := nomatch hidle.symm.trans hcall

/-- A call goes on: what was started stays so, and what it leaves open it left open before, or it was started or waits. -/
theorem Track.of_call (h : Track plan w) (hcall : w.state.process = some call) (hcall' : w'.state.process = some call')
    (hstarted : ∀ key, Started plan w key → Started plan w' key ∨ key ∈ call'.awaited plan)
    (hawaited : ∀ key ∈ call.awaited plan, Started plan w' key ∨ key ∈ call'.awaited plan)
    (hmemory : ∀ key, Open (call'.receipt.actions.get? key) →
      Open (call.receipt.actions.get? key) ∨ Started plan w' key ∨ key ∈ call'.awaited plan)
    (hdisk : ∀ key, w'.state.known key = w.state.known key ∨ w'.state.known key = call'.receipt.actions.get? key)
    (hworkers : ∀ i workers, call'.pc.pool? = some (i, workers) → ∀ j worker, (j, worker) ∈ workers → worker ≠ .waiting →
      ∀ action, plan.action? i j = some action → Started plan w' (actionKey action.1 action.2)) : Track plan w' := by
  have hlast : ∀ key, Started plan w key ∨ key ∈ call.awaited plan → Started plan w' key ∨ key ∈ call'.awaited plan :=
    fun key hkey => hkey.elim (hstarted key) (hawaited key)
  have hremembered : ∀ key, Open (call'.receipt.actions.get? key) → Started plan w' key ∨ key ∈ call'.awaited plan :=
    fun key hopen => (hmemory key hopen).elim (fun hold => hlast key (h.memory call hcall key hold)) id
  constructor
  case disk =>
    intro key hopen
    have hkey : Started plan w' key ∨ key ∈ call'.awaited plan := by
      rcases hdisk key with hsame | hsaved
      · rw [hsame] at hopen
        rcases h.disk key hopen with hstart | ⟨other, hother, hwaits⟩
        · exact hstarted key hstart
        rw [hcall] at hother
        cases hother
        exact hawaited key hwaits
      · exact hremembered key (hsaved ▸ hopen)
    exact hkey.imp id fun hwaits => ⟨call', hcall', hwaits⟩
  case memory =>
    intro other hother key hopen
    rw [hcall'] at hother
    cases hother
    exact hremembered key hopen
  case workers =>
    intro other hother
    rw [hcall'] at hother
    cases hother
    exact hworkers

/-- A call ends with the disk as it was, or with its receipt on it. -/
theorem Track.of_end (h : Track plan w) (hcall : w.state.process = some call) (hend : w'.state.process = none)
    (hstarted : ∀ key, Started plan w key → Started plan w' key)
    (hdisk : (∀ key, w'.state.known key = w.state.known key) ∧ (∀ key ∈ call.awaited plan, ¬Open (w.state.known key)) ∨
      (∀ key, w'.state.known key = call.receipt.actions.get? key) ∧ call.awaited plan = []) : Track plan w' := by
  refine .of_idle hend fun key hopen => ?_
  rcases hdisk with ⟨hsame, hclear⟩ | ⟨hsaved, hnone⟩
  · rw [hsame key] at hopen
    rcases h.disk key hopen with hstart | ⟨other, hother, hwaits⟩
    · exact hstarted key hstart
    rw [hcall] at hother
    cases hother
    exact absurd hopen (hclear key hwaits)
  rw [hsaved key] at hopen
  rcases h.memory call hcall key hopen with hstart | hwaits
  · exact hstarted key hstart
  · rw [hnone] at hwaits
    cases hwaits

variable {t : State} {pc : Pc} {i j : ℕ} {worker worker' : Worker} {workers : List (ℕ × Worker)}

/-- What was started stays so while it is not marked again. -/
theorem Started.mono (h : Started plan w key) (hsub : ∀ note ∈ w.state.log, note ∈ w'.state.log) (hnew : key ∉ w'.unstarted) :
    Started plan w' key := by
  obtain ⟨-, call, i, j, phase, action, hissued, hrest⟩ := h
  exact ⟨hnew, call, i, j, phase, action, hsub _ hissued, hrest⟩

/-- A call goes on with its receipt, perhaps saved. -/
theorem Track.move (h : Track plan w) (hcall : w.state.process = some call) (hprocess : t.process = some { call with pc := pc })
    (hsub : ∀ note ∈ w.state.log, note ∈ t.log)
    (hdisk : ∀ key, t.known key = w.state.known key ∨ t.known key = call.receipt.actions.get? key)
    (hawaited : ∀ key ∈ call.awaited plan, key ∈ Call.awaited plan { call with pc := pc })
    (hpool : ∀ i workers, pc.pool? = some (i, workers) → ∀ j worker, (j, worker) ∈ workers → worker ≠ .waiting →
      ∀ action, plan.action? i j = some action → Started plan w (actionKey action.1 action.2)) : Track plan ⟨t, w.unstarted⟩ := by
  have hstarted : ∀ key, Started plan w key → Started plan ⟨t, w.unstarted⟩ key := fun key hkey => hkey.mono hsub hkey.1
  exact h.of_call hcall hprocess (fun key hkey => .inl (hstarted key hkey)) (fun key hkey => .inr (hawaited key hkey))
    (fun _ hopen => .inl hopen) hdisk fun i workers hp j worker hmem hne action haction =>
      hstarted _ (hpool i workers hp j worker hmem hne action haction)

/-- A call ends with the disk as it was, and nothing that waits is open on it. -/
theorem Track.stop (h : Track plan w) (hcall : w.state.process = some call)
    (hclear : ∀ key ∈ call.awaited plan, ¬Open (w.state.known key)) : Track plan ⟨w.state.finish answer, w.unstarted⟩ :=
  h.of_end hcall rfl (fun _ hkey => hkey) (.inl ⟨fun _ => rfl, hclear⟩)

/-- A call ends with its receipt on the disk, and nothing waits. -/
theorem Track.saveStop (h : Track plan w) (hcall : w.state.process = some call) (hnone : call.awaited plan = [])
    : Track plan ⟨(w.state.save call.receipt).finish answer, w.unstarted⟩ :=
  h.of_end hcall rfl (fun _ hkey => hkey) (.inr ⟨fun _ => rfl, hnone⟩)

theorem awaited_eq_nil (h : call.pc.waiting.2 = []) : call.awaited plan = [] := by
  rw [Call.awaited, h]
  rfl

theorem not_open_of_nil (h : call.awaited plan = []) : ∀ key ∈ call.awaited plan, ¬Open (w.state.known key) := by
  intro key hkey
  rw [h] at hkey
  cases hkey

/-- Places where actions wait for the same workers. -/
theorem awaited_of_waiting (h : pc.waiting = call.pc.waiting) : ∀ key ∈ call.awaited plan, key ∈ Call.awaited plan { call with pc := pc } := by
  intro key hkey
  rw [Call.awaited] at hkey ⊢
  rw [h]
  exact hkey

/-- Nothing waits that would have to go on waiting. -/
theorem awaited_of_nil (h : call.pc.waiting.2 = []) : ∀ key ∈ call.awaited plan, key ∈ Call.awaited plan { call with pc := pc } := by
  intro key hkey
  rw [awaited_eq_nil h] at hkey
  cases hkey

/-- An action is marked, and waits. -/
theorem Track.mark {todo : List ℕ} (h : Track plan w) (hcall : w.state.process = some call)
    (hat : call.pc = .marking i j todo) (haction : plan.action? i j = some (phase, action)) :
    Track plan ⟨w.state.goto (call.mark phase action .running) (.marking i (j + 1) (todo ++ [j])), actionKey phase action :: w.unstarted⟩ := by
  have hself : actionKey phase action ∈
      Call.awaited plan { call.mark phase action .running with pc := .marking i (j + 1) (todo ++ [j]) } :=
    mem_awaited.mpr ⟨j, List.mem_append_right _ List.mem_cons_self, (phase, action), haction, rfl⟩
  refine h.of_call hcall rfl ?_ ?_ ?_ (fun _ => .inl rfl) fun _ _ hno => nomatch hno
  · intro key hkey
    by_cases hsame : key = actionKey phase action
    · exact .inr (hsame ▸ hself)
    · refine .inl ⟨fun hmem => ?_, hkey.2⟩
      exact (List.mem_cons.mp hmem).elim hsame hkey.1
  · intro key hkey
    obtain ⟨j', hj', hrest⟩ := mem_awaited.mp hkey
    rw [hat] at hj' hrest
    exact .inr (mem_awaited.mpr ⟨j', List.mem_append_left _ hj', hrest⟩)
  intro key hopen
  by_cases hsame : key = actionKey phase action
  · exact .inr (.inr (hsame ▸ hself))
  · have hold : (call.mark phase action .running).memory key = call.memory key := memory_mark_of_ne hsame
    exact .inl (hold ▸ hopen : Open (call.memory key))

/-- The result of an action is recorded. -/
theorem Track.record {next : ℕ} (h : Track plan w)
    (hcall : w.state.process = some call) (hat : call.pc = .applying i workers next) (haction : plan.action? i j = some (phase, action))
    (hmem : (j, .finished state) ∈ workers) (hsub : ∀ note ∈ w.state.log, note ∈ s.log)
    (hdisk : s.disk = some (call.mark phase action state).receipt) :
    Track plan ⟨s.goto (call.mark phase action state) (.applying i workers (next + 1)), w.unstarted⟩ := by
  have hworkers := h.workers call hcall i workers (by rw [hat]; rfl)
  have hkept : ∀ key, Started plan w key → Started plan ⟨s.goto (call.mark phase action state) (.applying i workers (next + 1)), w.unstarted⟩ key :=
    fun key hkey => hkey.mono hsub hkey.1
  refine h.of_call hcall rfl (fun key hkey => .inl (hkept key hkey)) (fun key hkey => .inr ?_) ?_ (fun key => .inr ?_) ?_
  · obtain ⟨j', hj', hrest⟩ := mem_awaited.mp hkey
    rw [hat] at hj' hrest
    exact mem_awaited.mpr ⟨j', hj', hrest⟩
  · intro key hopen
    by_cases hsame : key = actionKey phase action
    · exact .inr (.inl (hsame ▸ hkept _ (hworkers j _ hmem Worker.noConfusion _ haction)))
    · have hold : (call.mark phase action state).memory key = call.memory key := memory_mark_of_ne hsame
      exact .inl (hold ▸ hopen : Open (call.memory key))
  · exact congrArg (Option.bind · _) hdisk
  intro i' workers' hp j' worker hmem' hne action' haction'
  cases hp
  exact hkept _ (hworkers j' worker hmem' hne action' haction')

/-- The call goes on without a command. -/
theorem Track.advance (h : Track plan w) (hinv : Inv plan w.state) (hcall : w.state.process = some call)
    (hspared : Spared plan w (.advance ok)) (hstep : advance plan w.state call ok = some t) :
    Track plan ⟨t, unstartedAfter plan call (.advance ok) w.unstarted⟩ := by
  have hends := hspared call hcall
  have hpc := (hinv.process call hcall).pc
  unfold Deploy.advance at hstep
  rw [unstartedAfter]
  split at hstep
  next hat =>
    have hnone : call.pc.waiting.2 = [] := by
      rw [hat]
      rfl
    rw [hat]
    split at hstep
    · cases hstep
      exact h.move hcall rfl (fun _ => id) (fun _ => .inr rfl) (awaited_of_nil hnone) fun _ _ hno => nomatch hno
    · cases hstep
      exact h.stop hcall (not_open_of_nil (awaited_eq_nil hnone))
  next i hat =>
    have hnone : call.pc.waiting.2 = [] := by
      rw [hat]
      rfl
    rw [hat]
    split at hstep
    · cases hstep
      exact h.move hcall rfl (fun _ => id) (fun _ => .inl rfl) (awaited_of_nil hnone) fun _ _ hno => nomatch hno
    split at hstep
    · cases hstep
      exact h.stop hcall (not_open_of_nil (awaited_eq_nil hnone))
    · cases hstep
      exact h.move hcall rfl (fun _ => id) (fun _ => .inl rfl) (awaited_of_nil hnone) fun _ _ hno => nomatch hno
  next i j c hat =>
    have hnone : call.pc.waiting.2 = [] := by
      rw [hat]
      rfl
    have hmove : ∀ pc : Pc, pc.pool? = none → Track plan ⟨w.state.goto call pc, w.unstarted⟩ := fun pc hpool =>
      h.move hcall rfl (fun _ => id) (fun _ => .inl rfl) (awaited_of_nil hnone) fun _ _ hsome => nomatch hpool.symm.trans hsome
    have hstop : ∀ answer, Track plan ⟨w.state.finish answer, w.unstarted⟩ := fun answer =>
      h.stop hcall (not_open_of_nil (awaited_eq_nil hnone))
    rw [hat]
    split at hstep
    · cases hstep
      exact hmove _ rfl
    split at hstep
    · cases hstep
      exact hstop _
    · cases hstep
      exact hstop _
    · cases hstep
      exact hmove _ rfl
    split at hstep
    · cases hstep
      exact hmove _ rfl
    · cases hstep
  next i j todo hat =>
    rw [hat]
    dsimp only
    cases haction : plan.action? i j with
    | none =>
      rw [haction] at hstep
      cases hstep
      exact h.move hcall rfl (fun _ => id) (fun _ => .inl rfl) (awaited_of_waiting (by rw [hat]; rfl)) fun _ _ hno => nomatch hno
    | some found =>
      obtain ⟨phase, action⟩ := found
      rw [haction] at hstep
      dsimp only at hstep ⊢
      split at hstep
      · cases hstep
      next hopen =>
        rw [if_neg hopen]
        cases hstep
        exact h.mark hcall hat haction
  next i todo hat =>
    rw [hat]
    split at hstep
    · cases hstep
      refine h.move hcall rfl (fun _ => id) (fun _ => .inr rfl) ?_ ?_
      · intro key hkey
        obtain ⟨j, hj, hrest⟩ := mem_awaited.mp hkey
        rw [hat] at hj hrest
        refine mem_awaited.mpr ⟨j, ?_, hrest⟩
        exact mem_map.mpr ⟨(j, .waiting), mem_filter.mpr ⟨mem_map.mpr ⟨j, hj, rfl⟩, rfl⟩, rfl⟩
      intro i' workers hp j worker hmem hne
      cases hp
      obtain ⟨j', -, heq⟩ := mem_map.mp hmem
      cases heq
      exact absurd rfl hne
    next hok =>
      cases hstep
      refine h.stop hcall fun key hkey => (hends ?_ key hkey).2
      rw [Event.ends, hat]
      cases ok
      · rfl
      · exact absurd rfl hok
  next i workers next hat =>
    rw [hat] at hpc
    obtain ⟨-, -, hcollected⟩ := hpc
    have hstarted : ∀ i' workers', call.pc.pool? = some (i', workers') → ∀ j worker, (j, worker) ∈ workers' → worker ≠ .waiting →
        ∀ action, plan.action? i' j = some action → Started plan w (actionKey action.1 action.2) := h.workers call hcall
    rw [hat] at hstarted ⊢
    split at hstep
    next hlast =>
      have hnone : call.pc.waiting.2 = [] := by
        rw [hat]
        refine List.map_eq_nil_iff.mpr (List.filter_eq_nil_iff.mpr fun worker hmem => ?_)
        obtain ⟨k, hk⟩ := List.mem_iff_getElem?.mp hmem
        have hlt : k < next := (List.getElem?_eq_some_iff.mp hk).1.trans_le (List.getElem?_eq_none_iff.mp hlast)
        obtain ⟨state, hstate⟩ := (hcollected k hlt worker.1 worker.2 hk).1
        rw [hstate]
        exact of_decide_eq_false rfl
      split at hstep
      · cases hstep
        exact h.move hcall rfl (fun _ => id) (fun _ => .inl rfl) (awaited_of_nil hnone) fun _ _ hno => nomatch hno
      · cases hstep
        exact h.stop hcall (not_open_of_nil (awaited_eq_nil hnone))
    next j state hnext =>
      split at hstep
      · cases hstep
      next phase action haction =>
        split at hstep
        · cases hstep
          refine h.record hcall hat haction (mem_of_getElem? hnext) ?_ ?_
          · intro note hnote
            split
            · exact mem_cons_of_mem _ hnote
            · exact hnote
          split
          · rfl
          · rfl
        · cases hstep
          exact h.move hcall rfl (fun _ => id) (fun _ => .inl rfl) (awaited_of_waiting (by rw [hat]; rfl)) hstarted
    next j hnext =>
      cases hstep
      exact h.move hcall rfl (fun _ => id) (fun _ => .inl rfl) (awaited_of_waiting (by rw [hat]; rfl)) hstarted
    · cases hstep
  next i workers message hat =>
    rw [hat]
    split at hstep
    · cases hstep
    cases hstep
    refine h.stop hcall fun key hkey => (hends ?_ key hkey).2
    rw [Event.ends, hat]
  next hat =>
    have hnone : call.pc.waiting.2 = [] := by
      rw [hat]
      rfl
    rw [hat]
    split at hstep
    · cases hstep
      exact h.of_end hcall rfl (fun key hkey => hkey.mono (fun _ => mem_cons_of_mem _) hkey.1) (.inr ⟨fun _ => rfl, awaited_eq_nil hnone⟩)
    · cases hstep
      exact h.stop hcall (not_open_of_nil (awaited_eq_nil hnone))

/-- A command of the call itself gives a result or raises. -/
theorem Track.ask (h : Track plan w) (hcall : w.state.process = some call) (hspared : Spared plan w (.ask result ok))
    (hstep : ask plan w.state call result ok = some t) : Track plan ⟨t, w.unstarted⟩ := by
  have hends := hspared call hcall
  unfold Deploy.ask at hstep
  split at hstep
  next i j c hat =>
    have hnone : call.pc.waiting.2 = [] := by
      rw [hat]
      rfl
    have hstop : ∀ answer, Track plan ⟨w.state.finish answer, w.unstarted⟩ := fun answer =>
      h.stop hcall (not_open_of_nil (awaited_eq_nil hnone))
    split at hstep
    · cases hstep
    obtain ⟨-, hstep⟩ := Option.ite_none_right_eq_some.mp hstep
    split at hstep
    · cases hstep
    · cases hstep
      exact hstop _
    split at hstep
    · cases hstep
      exact h.move hcall rfl (fun _ => mem_cons_of_mem _) (fun _ => .inl rfl) (awaited_of_nil hnone) fun _ _ hno => nomatch hno
    cases ok with
    | true =>
      cases hstep
      exact h.saveStop hcall (awaited_eq_nil hnone)
    | false =>
      cases hstep
      exact hstop _
  next i j todo hat =>
    split at hstep
    · cases hstep
    next phase action haction =>
      obtain ⟨-, hstep⟩ := Option.ite_none_right_eq_some.mp hstep
      split at hstep
      · cases hstep
        exact h.stop hcall fun key hkey => (hends rfl key hkey).2
      next answer =>
        rw [Event.ends, hat] at hends
        dsimp only at hends
        rw [haction] at hends
        split at hstep
        next hverified =>
          split at hstep
          · cases hstep
            exact h.move hcall rfl (fun _ => mem_cons_of_mem _) (fun _ => .inr rfl) (awaited_of_waiting (by rw [hat]; rfl))
              fun _ _ hno => nomatch hno
          next hok =>
            cases hstep
            rw [Bool.not_eq_true] at hok
            rw [hok, Option.any_some, Bool.and_false] at hends
            exact h.stop hcall fun key hkey => (hends rfl key hkey).2
        next hfailed =>
          rw [Bool.not_eq_true] at hfailed
          rw [Option.any_some, hfailed, Bool.false_and] at hends
          -- the failure saves the marks of the actions before it, so none may wait
          cases ok with
          | true =>
            cases hstep
            refine h.saveStop hcall (List.eq_nil_iff_forall_not_mem.mpr fun key hkey => ?_)
            cases (hends rfl key hkey).1
          | false =>
            cases hstep
            exact h.stop hcall fun key hkey => (hends rfl key hkey).2
  · cases hstep

theorem waiting_of_pool (h : pc.pool? = some (i, workers)) :
    pc.waiting = (i, (workers.filter fun worker => worker.2 = .waiting).map Prod.fst) := by
  cases pc with
  | applying | draining =>
    cases h
    rfl
  | _ => cases h

theorem pool_withPool {workers' : List (ℕ × Worker)} (h : pc.pool? = some (i, workers)) :
    (pc.withPool workers').pool? = some (i, workers') := by
  cases pc with
  | applying | draining =>
    cases h
    rfl
  | _ => cases h

/-- Those that wait when a worker goes on: the others that waited. -/
theorem mem_awaited_withPool (hpool : call.pc.pool? = some (i, workers)) (hk : workers[k]? = some (j, worker)) (hkey : key ∈ call.awaited plan) :
    key ∈ Call.awaited plan { call with pc := call.pc.withPool (workers.set k (j, worker')) } ∨
      worker = .waiting ∧ ∃ action, plan.action? i j = some action ∧ actionKey action.1 action.2 = key := by
  obtain ⟨j', hj', action, haction, hsame⟩ := mem_awaited.mp hkey
  rw [waiting_of_pool hpool] at hj' haction
  obtain ⟨⟨j'', worker''⟩, hmem, rfl⟩ := mem_map.mp hj'
  obtain ⟨hmem, hwaits⟩ := mem_filter.mp hmem
  obtain ⟨l, hl⟩ := List.mem_iff_getElem?.mp hmem
  by_cases hlk : k = l
  · subst hlk
    rw [hk] at hl
    cases hl
    exact .inr ⟨of_decide_eq_true hwaits, action, haction, hsame⟩
  left
  refine mem_awaited.mpr ⟨j'', ?_, action, ?_, hsame⟩
  · rw [waiting_of_pool (pool_withPool hpool)]
    refine mem_map.mpr ⟨(j'', worker''), mem_filter.mpr ⟨mem_of_getElem? (i := l) ?_, hwaits⟩, rfl⟩
    rw [List.getElem?_set, if_neg hlk, hl]
  · rw [waiting_of_pool (pool_withPool hpool)]
    exact haction

section

variable (h : Track plan w)

include h

section

variable (hcall : w.state.process = some call)

include hcall

section

variable (hpool : call.pc.pool? = some (i, workers)) (hk : workers[k]? = some (j, worker))

include hpool hk

/-- A worker goes on that has started its action, or does so now. -/
theorem Track.setWorker (hdisk : s.disk = w.state.disk) (hkept : ∀ key, Started plan w key → Started plan ⟨s, unstarted⟩ key)
    (hself : ∀ action, plan.action? i j = some action → Started plan ⟨s, unstarted⟩ (actionKey action.1 action.2)) :
    Track plan ⟨s.setWorker call workers k j worker', unstarted⟩ := by
  refine h.of_call hcall rfl (fun key hkey => .inl (hkept key hkey)) (fun key hkey => ?_) (fun key => .inl) (fun key => .inl ?_) ?_
  · rcases mem_awaited_withPool hpool hk hkey with hwaits | ⟨-, action, haction, rfl⟩
    · exact .inr hwaits
    · exact .inl (hself action haction)
  · exact congrArg (Option.bind · _) hdisk
  intro i' workers' hp j' worker'' hmem hne action haction
  rw [pool_withPool hpool] at hp
  cases hp
  obtain ⟨l, hl⟩ := List.mem_iff_getElem?.mp hmem
  rw [List.getElem?_set] at hl
  split at hl
  · split at hl
    · cases hl
      exact hself action haction
    · cases hl
  · exact hkept _ (h.workers call hcall _ _ hpool j' worker'' (mem_of_getElem? hl) hne action haction)

omit hpool hk in
/-- A worker issues the command of its action, which takes its mark off. -/
theorem Track.begin (hstep : begin w.state call k = some t) : Track plan ⟨t, unstartedAfter plan call (.begin k) w.unstarted⟩ := by
  unfold Deploy.begin at hstep
  split at hstep
  · cases hstep
  next i workers hpool =>
    split at hstep
    next j hk =>
      split at hstep
      · cases hstep
        refine h.setWorker hcall hpool hk rfl ?_ ?_
        · intro key hkey
          refine hkey.mono (fun _ => mem_cons_of_mem _) fun hmem => hkey.1 ?_
          rw [unstartedAfter] at hmem
          split at hmem
          · exact (mem_filter.mp hmem).1
          · exact hmem
        intro action haction
        refine ⟨?_, call.id, i, j, action.1, action.2, List.mem_cons_self, haction, rfl⟩
        rw [unstartedAfter, hpool, Option.bind_some, hk, Option.bind_some, haction]
        intro hmem
        exact of_decide_eq_true (mem_filter.mp hmem).2 rfl
      · cases hstep
    · cases hstep

/-- A worker goes on after its command was issued. -/
theorem Track.proceed (hbusy : worker ≠ .waiting) : Track plan ⟨w.state.setWorker call workers k j worker', w.unstarted⟩ :=
  h.setWorker hcall hpool hk rfl (fun _ hkey => hkey) fun action haction =>
    h.workers call hcall i workers hpool j worker (mem_of_getElem? hk) hbusy action haction

/-- An action ends. -/
theorem Track.endWorker (hbusy : worker ≠ .waiting) : Track plan ⟨w.state.endWorker call i workers k j state, w.unstarted⟩ := by
  unfold State.endWorker
  split_ifs with hsucceeded
  · have hkept : ∀ key, Started plan w key → Started plan ⟨w.state.note (.succeeded call.id i j), w.unstarted⟩ key := fun key hkey =>
      hkey.mono (fun _ => mem_cons_of_mem _) hkey.1
    exact h.setWorker hcall hpool hk rfl hkept fun action haction =>
      hkept _ (h.workers call hcall i workers hpool j worker (mem_of_getElem? hk) hbusy action haction)
  · exact h.proceed hcall hpool hk hbusy

end

/-- The command of an action gives a result or raises. -/
theorem Track.reply (hstep : reply plan w.state call k result = some t) : Track plan ⟨t, w.unstarted⟩ := by
  unfold Deploy.reply at hstep
  split at hstep
  · cases hstep
  next i workers hpool =>
    split at hstep
    next j hk =>
      split at hstep
      · cases hstep
      · cases hstep
        exact h.proceed hcall hpool hk Worker.noConfusion
      split at hstep
      · cases hstep
        exact h.proceed hcall hpool hk Worker.noConfusion
      · cases hstep
        exact h.endWorker hcall hpool hk Worker.noConfusion
    · cases hstep

/-- The verification of an action gives a result or raises. -/
theorem Track.confirm (hstep : confirm plan w.state call k result = some t) : Track plan ⟨t, w.unstarted⟩ := by
  unfold Deploy.confirm at hstep
  split at hstep
  · cases hstep
  next i workers hpool =>
    split at hstep
    next j hk =>
      split at hstep
      · cases hstep
      · cases hstep
        exact h.proceed hcall hpool hk Worker.noConfusion
      · cases hstep
        exact h.endWorker hcall hpool hk Worker.noConfusion
    · cases hstep

end

/-- A controller calls: what the disk leaves open was started. -/
theorem Track.start {resume : Bool} {permissions : Permissions} {approval : String} :
    Track plan ⟨start plan w.state resume permissions approval, w.unstarted⟩ := by
  unfold Deploy.start
  cases hprocess : w.state.process with
  | some =>
    rw [Option.isSome_some, if_pos rfl]
    exact { disk := hprocess ▸ h.disk, memory := hprocess ▸ h.memory, workers := hprocess ▸ h.workers }
  | none =>
    have hidle : ∀ answer, Track plan ⟨w.state.finish answer, w.unstarted⟩ := fun answer => .of_idle rfl fun key => h.idle hprocess
    have hbegin : ∀ receipt : Receipt, (∀ key, Open (receipt.actions.get? key) → Open (w.state.known key)) →
        Track plan ⟨{ w.state.note (.opened w.state.calls permissions) with
          process := some ⟨w.state.calls, permissions, { receipt with complete := false }, .opening⟩, calls := w.state.calls + 1 },
          w.unstarted⟩ := by
      intro receipt hreceipt
      have hstarted : ∀ key, Open (w.state.known key) → Started plan ⟨{ w.state.note (.opened w.state.calls permissions) with
          process := some ⟨w.state.calls, permissions, { receipt with complete := false }, .opening⟩, calls := w.state.calls + 1 },
          w.unstarted⟩ key := fun key hopen =>
        (h.idle hprocess hopen).mono (fun _ => mem_cons_of_mem _) (h.idle hprocess hopen).1
      constructor
      case disk => exact fun key hopen => .inl (hstarted key hopen)
      case memory =>
        intro call hcall key hopen
        cases hcall
        exact .inl (hstarted key (hreceipt key hopen))
      case workers =>
        intro call hcall i workers hpool
        cases hcall
        cases hpool
    rw [Option.isSome_none, if_neg Bool.false_ne_true]
    split
    · exact hidle _
    split
    · exact hidle _
    split
    · split
      · exact hidle _
      exact hbegin _ fun key hopen => by
        rcases hopen with hno | hno
        · cases hno
        · cases hno
    next receipt hreceipt =>
      split
      · exact hidle _
      split
      · exact hidle _
      · refine hbegin _ fun key hopen => ?_
        rwa [State.known, hreceipt]

theorem Track.step (hinv : Inv plan w.state) (hspared : Spared plan w event) (hstep : watch plan w event = some w') : Track plan w' := by
  obtain ⟨t, hrun, rfl⟩ := Option.map_eq_some_iff.mp hstep
  unfold Deploy.step at hrun
  split at hrun
  · cases hrun
    cases w.state.process with
    | none | some => exact h.start
  · cases hrun
    cases hcall : w.state.process with
    | none => exact .of_idle rfl fun key => h.idle hcall
    | some call => exact h.of_end hcall rfl (fun _ hkey => hkey) (.inl ⟨fun _ => rfl, fun key hkey => (hspared call hcall rfl key hkey).2⟩)
  next call hcall =>
    rw [hcall]
    exact h.advance hinv hcall hspared hrun
  next call hcall =>
    rw [hcall]
    exact h.ask hcall hspared hrun
  next call hcall =>
    rw [hcall]
    exact h.begin hcall hrun
  next call hcall =>
    rw [hcall]
    exact h.reply hcall hrun
  next call hcall =>
    rw [hcall]
    exact h.confirm hcall hrun
  · cases hrun

end

theorem reachable_state {good : Watched → Event → Prop} (h : Reachable (watch plan) good ⟨init, []⟩ w) :
    Reachable (Deploy.step plan) Unrestricted init w.state := by
  refine h.invariant (fun w => Reachable (Deploy.step plan) Unrestricted init w.state) .start fun w event w' _ hs _ hstep => ?_
  obtain ⟨t, hrun, rfl⟩ := Option.map_eq_some_iff.mp hstep
  exact hs.next trivial hrun

theorem track_of_reachable (h : Reachable (watch plan) (Spared plan) ⟨init, []⟩ w) : Track plan w := by
  refine h.invariant (Track plan) (.of_idle rfl fun key hopen => ?_) fun _ _ _ hs htrack hspared hstep =>
    htrack.step (inv_of_reachable (reachable_state hs)) hspared hstep
  rcases hopen with hno | hno
  · cases hno
  · cases hno

end

/-- A call ended because a check failed or a completed action no longer verified. -/
def DriftFailure (plan : Plan) (s : State) : Prop := s.process = none ∧ ∃ i j phase action, plan.action? i j = some (phase, action) ∧
  (s.answer = some (.error (actionKey phase action ++ ": preflight failed")) ∨
    s.answer = some (.error (actionKey phase action ++ ": completed action no longer verifies; review drift")))

/-- What calls that end leave behind. -/
structure OnlyStarted (plan : Plan) (w : Watched) : Prop where
  /-- No call is in progress: every action that the disk leaves open was started. -/
  stopped : w.state.process = none → ∀ key, Open (w.state.known key) → Started plan w key
  /-- A call is refused over an action with an uncertain outcome only where that was started. -/
  refused : ∀ call, w.state.process = some call → ∀ i j c phase action, call.pc = .preflight i j c →
    plan.action? i j = some (phase, action) → Open (call.stateOf? phase action) → Started plan w (actionKey phase action)

/-- While no call ends between a saved mark and its command, no failure leaves work marked that did not start. -/
theorem only_started {plan : Plan} {w : Watched} (h : Reachable (watch plan) (Spared plan) ⟨init, []⟩ w) : OnlyStarted plan w := by
  have htrack := track_of_reachable h
  refine ⟨fun hidle key => htrack.idle hidle, fun call hcall i j c phase action hat _ hopen => ?_⟩
  rcases htrack.memory call hcall _ hopen with hstart | hwaits
  · exact hstart
  have hnone : call.pc.waiting.2 = [] := by
    rw [hat]
    rfl
  rw [awaited_eq_nil hnone] at hwaits
  cases hwaits

/-- A host is read while another one is set. -/
def sideBySide : Plan where
  phases := [⟨"p", [⟨"x", ["probe"], .readOnly, none, []⟩, ⟨"y", ["set"], .mutatesHost, some ⟨["get"], some "1", none⟩, []⟩]⟩]
  sha256 := "d"
  valid := by decide +kernel

/-- A command that fails. -/
def fails : Option Result := some ⟨1, "", none, false⟩

/-- A call in which the host that is read gives an answer and the other one is set. -/
def firstCall (answer : Option Result) : List Event :=
  [.start false ⟨false, false, false⟩ "d", .advance true, .advance true, .advance true, .advance true, .advance true, .advance true,
    .advance true, .advance true, .advance true, .begin 0, .begin 1, .reply 0 answer, .reply 1 succeeds, .confirm 1 succeeds,
    .advance true, .advance true, .advance true]

/-- The next call, up to its checks of the actions of a phase. -/
def nextCall : List Event := [.start true ⟨false, false, false⟩ "d", .advance true, .advance true, .advance true]

/-- The last call came to an error. -/
def State.failed (s : State) (message : String) : Bool :=
  match s.answer with
  | some (.error given) => given = message
  | _ => false

theorem answer_of_failed {s : State} {message : String} (h : s.failed message = true) : s.answer = some (.error message) := by
  unfold State.failed at h
  split at h
  next given hgiven => rw [hgiven, of_decide_eq_true h]
  · cases h

/-- Both actions were done, and the first is verified again before the drift of the second is found. -/
theorem only_started_verified : ∃ w, Reachable (watch sideBySide) (Spared sideBySide) ⟨init, []⟩ w ∧
    w.state.failed "p:y: completed action no longer verifies; review drift" = true ∧ OnlyStarted sideBySide w := by
  obtain ⟨w, hw, hdrift⟩ := Reachable.exists_of_checked_runs (fun w event => decide (Spared sideBySide w event))
    (fun _ _ => of_decide_eq_true) (watch sideBySide) ⟨init, []⟩
    (firstCall succeeds ++ [.advance true, .advance true] ++ nextCall ++ [.advance true, .advance true, .ask succeeds true, .ask fails true])
    (fun w => w.state.failed "p:y: completed action no longer verifies; review drift") (by decide +kernel)
  exact ⟨w, hw, hdrift, only_started hw⟩

/-- The first action is to be done again, and is marked before the drift of the second is found. -/
def driftBehindMark : List Event :=
  firstCall fails ++ nextCall ++ [.advance true, .advance true, .advance true, .ask fails true]

/-- A failure of drift leaves an action marked whose command was not issued since, and the next call is refused over it. -/
theorem drift_behind_mark_refused : ∃ w w', Reachable (watch sideBySide) Unrestricted ⟨init, []⟩ w ∧ DriftFailure sideBySide w.state ∧
    w.state.known "p:x" = some .running ∧ ¬Started sideBySide w "p:x" ∧ Reachable (watch sideBySide) Unrestricted w w' ∧
    w'.state.answer = some (.error "p:x: prior outcome is uncertain; inspect host state before creating a recovery plan") := by
  have hruns : ((runs (watch sideBySide) ⟨init, []⟩ driftBehindMark).bind fun w => (runs (watch sideBySide) w nextCall).map fun w' =>
      w.state.process.isNone && w.state.failed "p:y: completed action no longer verifies; review drift" &&
        decide (w.state.known "p:x" = some .running) && decide ("p:x" ∈ w.unstarted) &&
        w'.state.failed "p:x: prior outcome is uncertain; inspect host state before creating a recovery plan") = some true := by
    decide +kernel
  obtain ⟨w, hw, hrest⟩ := Option.bind_eq_some_iff.mp hruns
  obtain ⟨w', hw', hchecks⟩ := Option.map_eq_some_iff.mp hrest
  simp only [Bool.and_eq_true, decide_eq_true_eq] at hchecks
  obtain ⟨⟨⟨⟨hidle, hdrift⟩, hrunning⟩, hunstarted⟩, hrefused⟩ := hchecks
  refine ⟨w, w', .of_runs .start hw, ⟨Option.isNone_iff_eq_none.mp hidle, 0, 1, _, _, rfl, .inr ?_⟩, hrunning,
    fun hstarted => hstarted.1 hunstarted, .of_runs .start hw', answer_of_failed hrefused⟩
  rw [answer_of_failed hdrift]
  rfl

end SparkRing.Deploy
