import SparkRing.RolloutCalls

/-!
# What is stopped before a deployment starts

A call starts a deployment only where every other deployment of its switch that
shares a Spark with it was stopped before: its stop succeeded, and it was not
started since. A switch and its recovery keep to this on every path. A settlement
goes on where the candidate's stop is refused, so it keeps to this only where that
stop succeeds or no deployment that it brings back shares a Spark with the candidate.
-/

namespace SparkRing.Rollout

open CrashProgram
open List (mem_cons mem_filter not_mem_nil)
open Triple (assume handle seq)

/-- A stop of a deployment succeeded after its last start. -/
def stoppedSince (y : Deployment) : List AdapterCall → Bool
  | [] => false
  | call :: earlier =>
    if call.deployment = y then
      match call.operation with
      | .up => false
      | .down => call.succeeded || stoppedSince y earlier
    else stoppedSince y earlier

/-- A start, after earlier calls, of a deployment that shares no Spark with another one
that may run. -/
def SafeStart (involved : List Deployment) (call : AdapterCall) (earlier : List AdapterCall) : Prop :=
  call.operation = .up → ∀ y ∈ involved, y ≠ call.deployment → overlap y.placement call.deployment.placement = true →
    stoppedSince y earlier = true

instance (involved : List Deployment) (call : AdapterCall) (earlier : List AdapterCall) :
    Decidable (SafeStart involved call earlier) :=
  inferInstanceAs (Decidable (_ → _))

/-- Every start among calls is safe. -/
def SafeStarts (involved : List Deployment) : List AdapterCall → Prop
  | [] => True
  | call :: earlier => SafeStart involved call earlier ∧ SafeStarts involved earlier

instance decidableSafeStarts (involved : List Deployment) : DecidablePred (SafeStarts involved)
  | [] => inferInstanceAs (Decidable True)
  | _ :: earlier => @instDecidableAnd _ _ _ (decidableSafeStarts involved earlier)

def Record.involved (r : Record) : List Deployment := r.candidate :: r.owed

/-- The deployments a switch replaces run beside one another, and its candidate is none
of the displaced ones. -/
structure Record.Apart (r : Record) : Prop where
  candidate : r.candidate ∉ r.displaced
  /-- The replaced ones share no Spark. -/
  restore : ∀ x ∈ r.restore, ∀ y ∈ r.restore, x ≠ y → overlap x.placement y.placement = false

variable {r : Record} {x y : Deployment} {calls : List AdapterCall} {b : Bool} {fabric : List Placement}
  {slot : Placement} {crash : Frame → Prop} {script : List Answer} {involved : List Deployment} {w : World}

/-- A stop leaves what was stopped stopped. -/
theorem stoppedSince_down (h : stoppedSince y calls = true) : stoppedSince y (⟨x, .down, b⟩ :: calls) = true := by
  rw [stoppedSince]
  split
  · simp [h]
  · exact h

theorem stoppedSince_self : stoppedSince x (⟨x, .down, true⟩ :: calls) = true := by
  simp [stoppedSince]

/-- A start of another deployment leaves it stopped. -/
theorem stoppedSince_up (hne : y ≠ x) (h : stoppedSince y calls = true) : stoppedSince y (⟨x, .up, b⟩ :: calls) = true := by
  rw [stoppedSince, if_neg hne.symm]
  exact h

/-- A stop starts nothing. -/
theorem safeStarts_down (h : SafeStarts involved calls) : SafeStarts involved (⟨x, .down, b⟩ :: calls) :=
  ⟨fun hup => (nomatch hup), h⟩

/-- A replaced deployment shares its Sparks with no other one but the candidate. -/
theorem Record.Apart.other (h : r.Apart) (hx : x ∈ r.restore) (hy : y ∈ r.involved) (hne : y ≠ x)
    (hshare : overlap y.placement x.placement = true) : y = r.candidate := by
  rcases mem_cons.mp hy with rfl | howed
  · rfl
  by_contra hcandidate
  have hrestore : y ∈ r.restore := by
    rcases List.mem_append.mp howed with hprevious | hdisplaced
    · exact List.mem_append_left _ (mem_filter.mpr ⟨hprevious, decide_eq_true hcandidate⟩)
    · exact List.mem_append_right _ hdisplaced
  rw [h.restore y hrestore x hx hne] at hshare
  cases hshare

/-- A switch does not replace its candidate. -/
theorem Record.Apart.candidate_restore (h : r.Apart) : r.candidate ∉ r.restore := by
  intro hmem
  rcases List.mem_append.mp hmem with hprevious | hdisplaced
  · exact of_decide_eq_true (mem_filter.mp hprevious).2 rfl
  · exact h.candidate hdisplaced

/-- Something holds of the calls made so far. -/
abbrev OnCalls (P : List AdapterCall → Prop) (f : Frame) : Prop := P f.calls

/-- A program makes no call. -/
def Callless {α : Type} (p : Op α) : Prop :=
  ∀ P : List AdapterCall → Prop, Triple (OnCalls P) (OnCalls P) p (fun _ => OnCalls P) fun _ => OnCalls P

section Callless

variable {α β : Type} {p : Op α}

theorem Callless.ret (a : α) : Callless (pure a : Op α) := fun _ => Triple.ret fun _ h => h

theorem Callless.raise (e : Stop) : Callless (CrashProgram.raise e : Op α) := fun _ => Triple.raise fun _ h => h

theorem Callless.look (f : Frame → α) : Callless (CrashProgram.look f : Op α) := fun _ => Triple.look fun _ h => h

theorem Callless.note {f : Frame → Frame} (hf : ∀ s, (f s).calls = s.calls) :
    Callless (CrashProgram.note f : Op Unit) := fun P => Triple.note fun s h => by
  rw [OnCalls, hf]
  exact h

theorem Callless.effect {f : Answer → Frame → Ending Stop α × Frame} (hf : ∀ i s, (f i s).2.calls = s.calls)
    (hends : ∀ i s, (f i s).1 ≠ .crashed) : Callless (CrashProgram.effect f) := by
  refine fun P => Triple.effect (fun _ h => h) fun i s h => ?_
  have hkept : OnCalls P (f i s).2 := by
    rw [OnCalls, hf]
    exact h
  cases hend : (f i s).1 with
  | done | raised => exact hkept
  | crashed => exact absurd hend (hends i s)

theorem Callless.seq {k : α → Op β} (hp : Callless p) (hk : ∀ a, Callless (k a)) : Callless (p >>= k) :=
  fun P => (hp P).seq fun a => hk a P

theorem Callless.handle {h : Stop → Op α} (hp : Callless p) (hh : ∀ e, Callless (h e)) :
    Callless (CrashProgram.handle p h) := fun P => (hp P).handle fun e => hh e P

theorem Callless.forEach {f : β → Op Unit} {xs : List β} (h : ∀ x ∈ xs, Callless (f x)) :
    Callless (CrashProgram.forEach f xs) := fun P => Triple.forEach (fun _ => OnCalls P) fun x hx _ => h x hx P

end Callless

theorem callless_verify (d : Deployment) : Callless (verify d) :=
  .effect (fun i s => by cases i <;> rfl) fun i s => by cases i <;> simp

theorem callless_serving (d : Deployment) : Callless (serving d) :=
  .effect (fun _ _ => rfl) fun _ _ => by simp

theorem callless_cancelled : Callless cancelled :=
  .effect (fun i s => by cases i <;> rfl) fun i s => by cases i <;> simp

theorem callless_write (state : State) : Callless (write slot state) :=
  .seq (.note fun _ => rfl) fun _ => .effect (fun _ _ => rfl) fun _ _ => by simp

theorem callless_save (state : State) : Callless (save slot state) :=
  .seq callless_cancelled fun _ => callless_write state

theorem callless_saveActive (d : Deployment) : Callless (saveActive slot d) :=
  .effect (fun _ _ => rfl) fun _ _ => by simp

theorem callless_unlink : Callless (unlink slot) :=
  .effect (fun _ _ => rfl) fun _ _ => by simp

theorem callless_commit (d : Deployment) : Callless (commit fabric slot d) :=
  .seq (callless_saveActive d) fun _ =>
    .seq (.forEach fun s _ => callless_unlink) fun _ => callless_write .complete

theorem callless_restoreActive : Callless (restoreActive slot r) := by
  rw [restoreActive]
  split
  · exact .ret ()
  split
  · exact .ret ()
  · exact callless_saveActive _

theorem callless_settleActive : Callless (settleActive slot r) := by
  refine .seq (.look _) fun active => ?_
  split
  · split
    · exact callless_saveActive _
    · exact callless_unlink
  · exact .ret ()

/-- Wherever a call crashes, its starts were safe. -/
abbrev Safe (r : Record) (f : Frame) : Prop := SafeStarts r.involved f.calls

variable {raises : Stop → Frame → Prop}

/-- A program without calls keeps what holds of the calls. -/
theorem Callless.keeps {α : Type} {p : Op α} (hp : Callless p) {C P : List AdapterCall → Prop}
    (hcrash : ∀ calls, P calls → C calls) (hraises : ∀ e f, P f.calls → raises e f) :
    Triple (OnCalls C) (OnCalls P) p (fun _ => OnCalls P) raises := by
  intro s script hs
  have h := hp P s script hs
  cases hending : (p s script).1 with
  | done =>
    rw [hending] at h
    exact h
  | raised e =>
    rw [hending] at h
    exact hraises e _ h
  | crashed =>
    rw [hending] at h
    exact hcrash _ h

/-- Raised, with safe starts only. -/
abbrev RaisedSafe (r : Record) (_ : Stop) (f : Frame) : Prop := Safe r f

/-- A stop or a start that is safe: what holds after it. -/
theorem apply_triple {P Q : List AdapterCall → Prop} {operation : Operation}
    (hsafe : ∀ calls, P calls → SafeStarts r.involved calls) (hok : ∀ calls, P calls → Q (⟨x, operation, true⟩ :: calls))
    (hfails : ∀ calls, P calls → SafeStarts r.involved (⟨x, operation, false⟩ :: calls)) :
    Triple (Safe r) (OnCalls P) (apply x operation) (fun _ => OnCalls Q) (RaisedSafe r) := by
  refine Triple.effect (fun f h => hsafe _ h) fun answer f h => ?_
  cases answer with
  | ok => exact hok _ h
  | refused | broken => exact hfails _ h

/-- Nothing was started. -/
def NoStarts (calls : List AdapterCall) : Prop := ∀ call ∈ calls, call.operation = .down

/-- A call that started nothing made only safe starts. -/
theorem NoStarts.safe (h : NoStarts calls) : SafeStarts involved calls := by
  induction calls with
  | nil => trivial
  | cons call earlier ih =>
    refine ⟨fun hup => ?_, ih fun c hc => h c (List.mem_cons_of_mem call hc)⟩
    rw [h call List.mem_cons_self] at hup
    cases hup

theorem NoStarts.down (h : NoStarts calls) : NoStarts (⟨x, .down, b⟩ :: calls) := by
  intro call hcall
  rcases mem_cons.mp hcall with rfl | hcall
  · rfl
  · exact h call hcall

/-- Starts were safe, and the candidate is stopped. -/
def CandidateStopped (r : Record) (calls : List AdapterCall) : Prop :=
  SafeStarts r.involved calls ∧ stoppedSince r.candidate calls = true

/-- Where the candidate is stopped, a replaced deployment starts safely. -/
theorem CandidateStopped.up (h : CandidateStopped r calls) (hapart : r.Apart) (hx : x ∈ r.restore) :
    CandidateStopped r (⟨x, .up, b⟩ :: calls) := by
  refine ⟨⟨fun _ y hy hne hshare => ?_, h.1⟩, stoppedSince_up ?_ h.2⟩
  · rw [hapart.other hx hy hne hshare]
    exact h.2
  · rintro rfl
    exact hapart.candidate_restore hx

/-- Where the candidate is the only deployment of its switch, it starts safely. -/
theorem safeStarts_alone (h : SafeStarts r.involved calls) (halone : ∀ y ∈ r.involved, y = x) :
    SafeStarts r.involved (⟨x, .up, b⟩ :: calls) :=
  ⟨fun _ y hy hne => absurd (halone y hy) hne, h⟩

/-- What a failed or cancelled switch brings back: what it replaced, or its candidate
alone. -/
def Returns (r : Record) (paths : List Deployment) : Prop :=
  (∀ x ∈ paths, x ∈ r.restore) ∨ ∀ x ∈ paths, ∀ y ∈ r.involved, y = x

/-- Bringing back starts nothing beside a deployment that may run. -/
theorem bringBack_starts {paths : List Deployment} (hapart : r.Apart) (hpaths : Returns r paths) :
    Triple (Safe r) (Safe r) (bringBack r.candidate paths) (fun _ => Safe r) (RaisedSafe r) := by
  refine seq (m := fun _ => OnCalls (CandidateStopped r)) ?_ fun _ => ?_
  · exact apply_triple (P := SafeStarts r.involved) (fun _ h => h) (fun _ h => ⟨safeStarts_down h, stoppedSince_self⟩)
      fun _ h => safeStarts_down h
  refine seq (m := fun _ => OnCalls (CandidateStopped r)) ?_ fun _ => ?_
  · refine Triple.forEach (fun _ => OnCalls (CandidateStopped r)) fun x _ _ => ?_
    split
    · exact Triple.ret fun _ h => h
    exact apply_triple (fun _ h => h.1) (fun _ h => ⟨safeStarts_down h.1, stoppedSince_down h.2⟩) fun _ h => safeStarts_down h.1
  refine seq (m := fun _ => Safe r) ?_ fun _ => ?_
  · rcases hpaths with hrestore | halone
    · have hloop : Triple (Safe r) (OnCalls (CandidateStopped r)) (forEach (fun other => apply other .up) paths.eraseDups)
          (fun _ => OnCalls (CandidateStopped r)) (RaisedSafe r) := by
        refine Triple.forEach (fun _ => OnCalls (CandidateStopped r)) fun x hx _ => ?_
        have hmem := hrestore x (List.mem_eraseDups.mp hx)
        exact apply_triple (fun _ h => h.1) (fun _ h => h.up hapart hmem) fun _ h => (h.up hapart hmem).1
      exact hloop.weaken (fun _ h => h) (fun _ _ h => h.1) fun _ _ h => h
    have hloop : Triple (Safe r) (Safe r) (forEach (fun other => apply other .up) paths.eraseDups)
        (fun _ => Safe r) (RaisedSafe r) := by
      refine Triple.forEach (fun _ => Safe r) fun x hx _ => ?_
      have honly := halone x (List.mem_eraseDups.mp hx)
      exact apply_triple (P := SafeStarts r.involved) (fun _ h => h) (fun _ h => safeStarts_alone h honly)
        fun _ h => safeStarts_alone h honly
    exact hloop.strengthen fun _ h => h.1
  exact (Callless.forEach fun x _ => callless_verify x).keeps (fun _ h => h) fun _ _ h => h

/-- What a program without calls does to safe starts. -/
theorem Callless.safe {α : Type} {p : Op α} (hp : Callless p) : Triple (Safe r) (Safe r) p (fun _ => Safe r) (RaisedSafe r) :=
  hp.keeps (P := SafeStarts r.involved) (fun _ h => h) fun _ _ h => h

/-- A switch stops one deployment after the other before it starts its candidate. -/
def Stopping (done : List Deployment) (calls : List AdapterCall) : Prop :=
  NoStarts calls ∧ ∀ y ∈ done, stoppedSince y calls = true

variable {done : List Deployment}

theorem Stopping.stopped (h : Stopping done calls) : Stopping (x :: done) (⟨x, .down, true⟩ :: calls) := by
  refine ⟨h.1.down, fun y hy => ?_⟩
  rcases mem_cons.mp hy with rfl | hy
  · exact stoppedSince_self
  · exact stoppedSince_down (h.2 y hy)

/-- A program without calls, while deployments are stopped. -/
theorem Callless.stopping {α : Type} {p : Op α} (hp : Callless p) :
    Triple (Safe r) (OnCalls (Stopping done)) p (fun _ => OnCalls (Stopping done)) (RaisedSafe r) :=
  hp.keeps (fun _ h => h.1.safe) fun _ _ h => h.1.safe

theorem apply_stops :
    Triple (Safe r) (OnCalls (Stopping done)) (apply x .down) (fun _ => OnCalls (Stopping (x :: done))) (RaisedSafe r) :=
  apply_triple (fun _ h => h.1.safe) (fun _ h => h.stopped) fun _ h => safeStarts_down h.1.safe

/-- The previous deployment is stopped, unless it is the candidate. -/
theorem stopPrevious_stops (stopped : Bool) :
    Triple (Safe r) (OnCalls (Stopping [])) (stopPrevious slot r stopped)
      (fun _ => OnCalls (Stopping (r.previous.toList.filter fun previous => decide (previous ≠ r.candidate))))
      (RaisedSafe r) := by
  rw [stopPrevious]
  cases r.previous with
  | none => exact Triple.ret fun _ h => h
  | some previous =>
    dsimp only
    by_cases hne : previous ≠ r.candidate
    · rw [if_pos hne]
      have htarget : (some previous).toList.filter (fun previous => decide (previous ≠ r.candidate)) = [previous] := by
        simp [hne]
      rw [htarget]
      refine (callless_save .stoppingPrevious).stopping.seq fun _ => ?_
      refine (Callless.stopping (.note ?_)).seq fun _ => apply_stops
      exact fun _ => rfl
    rw [if_neg hne]
    have htarget : (some previous).toList.filter (fun previous => decide (previous ≠ r.candidate)) = [] := by
      simp [not_not.mp hne]
    rw [htarget]
    split
    · exact Triple.ret fun _ h => h
    refine (callless_serving _).stopping.seq fun serves => ?_
    split
    · exact Triple.ret fun _ h => h
    refine (callless_save .stoppingPrevious).stopping.seq fun _ => ?_
    refine (apply_stops.weaken (fun _ h => h) (fun _ f h => ?_) fun _ _ h => h).seq fun _ =>
      Callless.stopping (.note ?_)
    · exact (⟨h.1, fun y hy => absurd hy not_mem_nil⟩ : Stopping [] f.calls)
    · exact fun _ => rfl

/-- The displaced deployments are stopped as well. -/
theorem stopDisplaced_stops (xs done : List Deployment) :
    Triple (Safe r) (OnCalls (Stopping done)) (forEach (stopDisplaced slot) xs)
      (fun _ => OnCalls (Stopping (xs.reverse ++ done))) (RaisedSafe r) := by
  induction xs generalizing done with
  | nil => exact Triple.ret fun _ h => h
  | cons x xs ih =>
    rw [List.reverse_cons, List.append_assoc]
    refine Triple.seq (m := fun _ => OnCalls (Stopping (x :: done))) ?_ fun _ => ih (x :: done)
    · refine (callless_save .stoppingPrevious).stopping.seq fun _ => ?_
      refine (Callless.stopping (.note ?_)).seq fun _ => apply_stops
      exact fun _ => rfl

/-- A switch starts its candidate where all it replaces is stopped. -/
theorem switch_starts (stopped : Bool) :
    Triple (Safe r) (OnCalls (Stopping [])) (switch fabric slot r stopped) (fun _ => Safe r) (RaisedSafe r) := by
  refine (stopPrevious_stops stopped).seq fun _ => ?_
  refine (stopDisplaced_stops r.displaced _).seq fun _ => ?_
  refine (callless_save .starting).stopping.seq fun _ => ?_
  refine (Callless.stopping (.note ?_)).seq fun _ => ?_
  · exact fun _ => rfl
  have hstart : ∀ calls b, Stopping (r.displaced.reverse ++
      r.previous.toList.filter fun previous => decide (previous ≠ r.candidate)) calls →
      SafeStarts r.involved (⟨r.candidate, .up, b⟩ :: calls) := by
    intro calls b h
    refine ⟨fun _ y hy hne _ => h.2 y ?_, h.1.safe⟩
    rcases mem_cons.mp hy with rfl | howed
    · exact absurd rfl hne
    rcases List.mem_append.mp howed with hprevious | hdisplaced
    · exact List.mem_append_right _ (mem_filter.mpr ⟨hprevious, decide_eq_true hne⟩)
    · exact List.mem_append_left _ (List.mem_reverse.mpr hdisplaced)
  refine seq (m := fun _ => Safe r) ?_ fun _ => ?_
  · exact apply_triple (Q := SafeStarts r.involved) (fun _ h => h.1.safe) (fun calls h => hstart calls true h)
      fun calls h => hstart calls false h
  refine (callless_save .verifying).safe.seq fun _ => ?_
  refine (callless_verify r.candidate).safe.seq fun _ => ?_
  refine callless_cancelled.safe.seq fun _ => ?_
  exact (callless_commit r.candidate).safe

/-- A switch that replaces nothing only restarts its candidate. -/
theorem alone_of_restore_nil (hnone : r.restore = []) (hx : x ∈ r.previous.toList) (hy : y ∈ r.involved) : y = x := by
  obtain ⟨hprevious, hdisplaced⟩ := List.append_eq_nil_iff.mp hnone
  have hsame : ∀ z ∈ r.previous.toList, z = r.candidate := fun z hz => by
    simpa using List.filter_eq_nil_iff.mp hprevious z hz
  rw [hsame x hx]
  rcases mem_cons.mp hy with rfl | howed
  · rfl
  · rw [Record.owed, hdisplaced, List.append_nil] at howed
    exact hsame y howed

/-- A cancelled switch brings back what it replaced, or its candidate alone. -/
theorem returns_cancelBack (f : Frame) (resume : Bool) : Returns r (cancelBack f r resume) := by
  rw [cancelBack]
  split
  · rename_i hnone
    split
    · exact .inr fun x hx y hy => alone_of_restore_nil hnone hx hy
    · exact .inl fun x hx => absurd hx not_mem_nil
  · exact .inl fun x hx => hx

/-- A cancelled switch starts nothing beside a deployment that may run. -/
theorem leaveCancelled_starts (hapart : r.Apart) (resume : Bool) :
    Triple (Safe r) (Safe r) (leaveCancelled slot r resume) (fun _ => Safe r) (RaisedSafe r) := by
  refine seq (m := fun back f => Returns r back ∧ Safe r f) ?_ fun back => assume fun hback => ?_
  · exact Triple.look fun f h => ⟨returns_cancelBack f resume, h⟩
  refine seq (m := fun _ => Safe r) ?_ fun _ => (Callless.raise .cancelled).safe
  refine handle (m := RaisedSafe r) ?_ fun _ =>
    (callless_write .needsAttention).safe.seq fun _ => (Callless.raise .error).safe
  refine (Callless.look _).safe.seq fun stops => ?_
  have hwrite : Triple (Safe r) (Safe r) (write slot .cancelled) (fun _ => Safe r) (RaisedSafe r) :=
    (callless_write .cancelled).safe
  split
  · exact (bringBack_starts hapart hback).seq fun _ => callless_restoreActive.safe.seq fun _ => hwrite
  · exact hwrite

/-- A failed switch starts nothing beside a deployment that may run. -/
theorem leaveFailed_starts (hapart : r.Apart) :
    Triple (Safe r) (Safe r) (leaveFailed slot r) (fun _ => Safe r) (RaisedSafe r) := by
  refine (Callless.look _).safe.seq fun switched => ?_
  have hraise : Triple (Safe r) (Safe r) (CrashProgram.raise .error : Op Unit) (fun _ => Safe r) (RaisedSafe r) :=
    (Callless.raise .error).safe
  split
  · refine (callless_write .recoveringPrevious).safe.seq fun _ => ?_
    refine seq (m := fun _ => Safe r) ?_ fun _ => hraise
    refine handle (m := RaisedSafe r) ?_ fun _ => (callless_write .needsAttention).safe
    refine (bringBack_starts hapart (.inl fun x hx => hx)).seq fun _ => ?_
    exact callless_restoreActive.safe.seq fun _ => (callless_write .failedRecovered).safe
  · exact (callless_write .failed).safe.seq fun _ => hraise

/-- The record a call switches by: that of the switch it resumes, or its own. -/
def Call.record (call : Call) (w : World) : Record :=
  match w.journal call.slot with
  | some retained => if retained.state.pending && !abandoned retained call.directory then retained else call.fresh
  | none => call.fresh

/-- A call holds its record and started nothing. -/
def Holding (r : Record) (f : Frame) : Prop := (∃ state, f.record = { r with state }) ∧ NoStarts f.calls

theorem Holding.safe {f : Frame} (h : Holding r f) : Safe r f := h.2.safe

/-- The journal is written. -/
theorem write_holds {state : State} :
    Triple (Safe r) (Holding r) (write slot state) (fun _ => Holding r) raises := by
  refine seq (m := fun _ => Holding r) ?_ fun _ => Triple.effect (fun _ h => h.safe) fun _ _ h => h
  · refine Triple.note fun f h => ⟨⟨state, ?_⟩, h.2⟩
    obtain ⟨old, hold⟩ := h.1
    rw [hold]

/-- A stop before preparation. -/
theorem apply_holds : Triple (Safe r) (Holding r) (apply x .down) (fun _ => Holding r) fun _ => Holding r := by
  refine Triple.effect (fun _ h => h.safe) fun answer f h => ?_
  cases answer with
  | ok | refused | broken => exact ⟨h.1, h.2.down⟩

variable {call : Call}

/-- The candidate is prepared. -/
theorem getReady_holds :
    Triple (Safe r) (Holding r) (getReady call) (fun _ => Holding r) (RaisedSafe r) := by
  have hfail : ∀ (state : State) (stop : Stop), Triple (Safe r) (Holding r)
      (do
        write call.slot state
        CrashProgram.raise stop : Op Unit) (fun _ => Holding r) (RaisedSafe r) :=
    fun state stop => write_holds.seq fun _ => Triple.raise fun _ h => h.safe
  have hsave : Triple (Safe r) (Holding r) (save call.slot .preparing) (fun _ => Holding r) fun _ => Holding r := by
    refine seq (m := fun _ => Holding r) ?_ fun _ => write_holds
    · refine Triple.effect (fun _ h => h.safe) fun answer _ h => ?_
      cases answer <;> exact h
  refine (hsave.handle fun stop => hfail .cancelled stop).seq fun _ => ?_
  refine handle (m := fun _ => Holding r) ?_ fun stop => write_holds.seq fun _ => Triple.raise fun _ h => h.safe
  · have hlook : Triple (Safe r) (Holding r) (look fun f => f.world.status call.directory : Op Status)
        (fun _ => Holding r) fun _ => Holding r := Triple.look fun _ h => h
    refine seq (m := fun _ => Holding r) ?_ fun stopped => ?_
    · refine hlook.seq fun status => ?_
      cases status with
      | stopped | running => exact Triple.ret fun _ h => h
      | unfinished => exact apply_holds.seq fun _ => Triple.ret fun _ h => h
    refine seq (m := fun _ => Holding r) ?_ fun _ => Triple.ret fun _ h => h
    · refine Triple.effect (fun _ h => h.safe) fun answer _ h => ?_
      cases answer <;> exact h

/-- The slot's journal is taken up. -/
theorem takeUp_holds :
    Triple (Safe (call.record w)) (fun f => f.world = w ∧ f.calls = []) (takeUp call)
      (fun _ => Holding (call.record w)) (RaisedSafe (call.record w)) := by
  have hfresh : ∀ f : Frame, f.record = call.fresh → f.calls = [] → call.record w = call.fresh →
      Holding (call.record w) f := by
    intro f hrecord hcalls hcall
    rw [hcall]
    exact ⟨⟨.preparing, hrecord⟩, by rw [hcalls]; exact fun _ h => absurd h not_mem_nil⟩
  refine seq (m := fun _ f => f.world = w ∧ f.record = call.fresh ∧ f.calls = []) ?_ fun _ => ?_
  · exact Triple.note fun f h => ⟨h.1, rfl, h.2⟩
  refine seq
    (m := fun journal f => journal = w.journal call.slot ∧ f.record = call.fresh ∧
      f.calls = []) ?_ fun journal => assume fun hj => ?_
  · exact Triple.look fun f h => ⟨by rw [h.1], h.2⟩
  cases journal with
  | none => exact Triple.ret fun f h => hfresh f h.1 h.2 (by rw [Call.record, ← hj])
  | some retained =>
    have hcall : call.record w =
        if retained.state.pending && !abandoned retained call.directory then retained else call.fresh := by
      rw [Call.record, ← hj]
    dsimp only
    split
    case isFalse hpending =>
      exact Triple.ret fun f h => hfresh f h.1 h.2 (by simp [hcall, hpending])
    case isTrue hpending =>
      split
      case isFalse habandoned =>
        have hresumed : call.record w = retained := by simp [hcall, hpending, habandoned]
        refine seq (m := fun _ => Holding (call.record w)) ?_ fun _ => Triple.ret fun _ h => h
        · refine Triple.note fun f h => ?_
          rw [hresumed]
          refine ⟨⟨retained.state, rfl⟩, ?_⟩
          rw [h.2]
          exact fun _ h => absurd h not_mem_nil
      case isTrue habandoned =>
        have hown : call.record w = call.fresh := by simp [hcall, hpending, habandoned]
        split
        case isTrue =>
          refine seq (m := fun _ => Holding (call.record w)) ?_ fun _ => Triple.ret fun _ h => h
          · exact (apply_holds.strengthen fun f h => hfresh f h.1 h.2 hown).handle fun _ => Triple.ret fun _ h => h
        case isFalse =>
          refine Triple.raise fun f h => ?_
          rw [RaisedSafe, Safe, h.2]
          trivial

/-- A call starts nothing beside a deployment that may run. -/
theorem execute_starts (hapart : (call.record w).Apart) :
    Triple (Safe (call.record w)) (fun f => f.world = w ∧ f.calls = []) (execute fabric call)
      (fun _ => Safe (call.record w)) (RaisedSafe (call.record w)) := by
  refine takeUp_holds.seq fun resume => ?_
  have hready : Triple (Safe (call.record w)) (Holding (call.record w))
      (if resume = true then pure false else getReady call) (fun _ => Holding (call.record w))
      (RaisedSafe (call.record w)) := by
    split
    · exact Triple.ret fun _ h => h
    · exact getReady_holds
  have hswitch : ∀ leave : Record → Stop → Op Unit, (∀ record, leave record .cancelled = leaveCancelled call.slot record resume ∧
      leave record .error = leaveFailed call.slot record ∧ leave record .refused = leaveFailed call.slot record) → ∀ stopped,
      Triple (Safe (call.record w)) (Holding (call.record w))
        (do
          let record ← look fun f => f.record
          handle (switch fabric call.slot record stopped) (leave record))
        (fun _ => Safe (call.record w)) (RaisedSafe (call.record w)) := by
    intro leave hleave stopped
    refine seq
      (m := fun record f => (∃ state, record = { call.record w with state }) ∧
        OnCalls (Stopping []) f) ?_ fun record => assume fun hrecord => ?_
    · exact Triple.look fun f h => ⟨h.1, h.2, fun y hy => absurd hy not_mem_nil⟩
    obtain ⟨state, rfl⟩ := hrecord
    have hapart' : ({ call.record w with state } : Record).Apart := ⟨hapart.candidate, hapart.restore⟩
    refine handle (m := (RaisedSafe (call.record w))) ?_ fun stop => ?_
    · exact switch_starts (r := { call.record w with state }) stopped
    cases stop with
    | cancelled =>
      rw [(hleave _).1]
      exact leaveCancelled_starts (r := { call.record w with state }) hapart' resume
    | error | refused =>
      simp only [(hleave _).2]
      exact leaveFailed_starts (r := { call.record w with state }) hapart'
  cases resume with
  | true | false => exact hready.seq (hswitch _ fun _ => ⟨rfl, rfl, rfl⟩)

section Settle

variable {C P : List AdapterCall → Prop}

variable {raises : Stop → Frame → Prop}

/-- Something is tried: what it leaves whether it succeeds or raises. -/
theorem attempt_triple {crash S T : Frame → Prop} {p : Op Unit}
    (hp : Triple crash S p (fun _ => T) fun _ => T) : Triple crash S (attempt p) (fun _ => T) raises := by
  refine handle (m := fun _ => T) ?_ fun _ => Triple.ret fun _ h => h
  · exact hp.seq fun _ => Triple.ret fun _ h => h

/-- An adapter is tried. -/
theorem attempt_keeps {operation : Operation} (hcrash : ∀ calls, P calls → C calls)
    (h : ∀ b calls, P calls → P (⟨x, operation, b⟩ :: calls)) :
    Triple (OnCalls C) (OnCalls P) (attempt (apply x operation)) (fun _ => OnCalls P) raises := by
  refine attempt_triple (Triple.effect (fun _ hf => hcrash _ hf) fun answer f hf => ?_)
  cases answer with
  | ok => exact h true _ hf
  | refused | broken => exact h false _ hf

/-- Adapters are tried one after the other. -/
theorem attemptAll_keeps {f : Deployment → Op Unit} {xs : List Deployment}
    (h : ∀ x ∈ xs, Triple (OnCalls C) (OnCalls P) (attempt (f x)) (fun _ => OnCalls P) raises) :
    Triple (OnCalls C) (OnCalls P) (attemptAll f xs) (fun _ => OnCalls P) raises := by
  induction xs with
  | nil => exact Triple.ret fun _ hf => hf
  | cons x xs ih =>
    refine (h x List.mem_cons_self).seq fun first => ?_
    exact (ih fun y hy => h y (List.mem_cons_of_mem x hy)).seq fun others => Triple.ret fun _ hf => hf

/-- A settlement after the stop of the candidate, which succeeded or not. -/
def settleOn (slot : Placement) (r : Record) (first : Bool) : Op Unit := do
  let downs ← attemptAll (fun path => apply path .down) (settleBack r)
  let ups ← attemptAll (fun path => apply path .up) (settleBack r)
  let verified ← attemptAll verify (settleBack r)
  if first && downs && ups && verified then do
    settleActive slot r
    write slot .cancelled
  else write slot .needsAttention

/-- A settlement stops the candidate and goes on. -/
theorem settle_eq (hr : w.journal slot = some r) (hpending : r.state.pending = true) :
    settle slot (.enter w) script =
      (attempt (apply r.candidate .down) >>= settleOn slot r) { Frame.enter w with record := r } script := by
  have hjournal : (Frame.enter w).world.journal slot = some r := hr
  simp only [settle, bind, Program.seq, look, hjournal, hpending, if_true]
  rfl

/-- What holds after the stop of the candidate, further stops and the starts of what is
brought back keep. -/
theorem settleOn_keeps (hcrash : ∀ calls, P calls → C calls) (hdown : ∀ x b calls, P calls → P (⟨x, .down, b⟩ :: calls))
    (hup : ∀ x ∈ settleBack r, ∀ b calls, P calls → P (⟨x, .up, b⟩ :: calls)) (first : Bool) :
    Triple (OnCalls C) (OnCalls P) (settleOn slot r first) (fun _ => OnCalls C) fun _ => OnCalls C := by
  refine seq (m := fun _ => OnCalls P) ?_ fun downs => ?_
  · exact attemptAll_keeps fun x _ => attempt_keeps hcrash (hdown x)
  refine seq (m := fun _ => OnCalls P) ?_ fun ups => ?_
  · exact attemptAll_keeps fun x hx => attempt_keeps hcrash (hup x hx)
  refine seq (m := fun _ => OnCalls P) ?_ fun verified => ?_
  · refine attemptAll_keeps fun x _ => ?_
    have hquiet : Callless (attempt (verify x)) :=
      .handle (.seq (callless_verify x) fun _ => .ret true) fun _ => .ret false
    exact hquiet.keeps hcrash fun e f h => hcrash _ h
  have hend : Callless (if (first && downs && ups && verified) = true then do
      settleActive slot r
      write slot .cancelled
    else write slot .needsAttention : Op Unit) := by
    split
    · exact .seq callless_settleActive fun _ => callless_write .cancelled
    · exact callless_write .needsAttention
  exact (hend.keeps hcrash fun e f h => hcrash _ h).weaken (fun _ h => h) (fun _ f h => hcrash _ h) fun _ _ h => h

/-- What a triple says of the calls of a run. -/
theorem calls_of_triple {α : Type} {p : Op α} {pre : Frame → Prop}
    (h : Triple (OnCalls C) pre p (fun _ => OnCalls C) fun _ => OnCalls C) {f : Frame} (hf : pre f) :
    C (p f script).2.1.calls := by
  have hrun := h f script hf
  revert hrun
  cases (p f script).1 <;> exact id

/-- What holds of the calls of a settlement: it holds of the stop of the candidate, as far
as its answer allows, and further stops and the starts of what is brought back keep it. -/
theorem settle_keeps (hr : w.journal slot = some r) (hempty : C []) (hcrash : ∀ calls, P calls → C calls)
    (hfirst : ∀ answer, script.head? = some answer → P [⟨r.candidate, .down, decide (answer = .ok)⟩])
    (hdown : ∀ x b calls, P calls → P (⟨x, .down, b⟩ :: calls)) (hup : ∀ x ∈ settleBack r, ∀ b calls, P calls → P (⟨x, .up, b⟩ :: calls)) :
    C (settle slot (.enter w) script).2.1.calls := by
  by_cases hpending : r.state.pending = true
  · rw [settle_eq hr hpending]
    have hrest : ∀ first f rest, P f.calls → C (settleOn slot r first f rest).2.1.calls :=
      fun first f rest hf => calls_of_triple (settleOn_keeps hcrash hdown hup first) hf
    cases script with
    | nil => exact hempty
    | cons answer rest =>
      have hcalls := hfirst answer rfl
      cases answer with
      | ok => exact hrest true _ rest hcalls
      | refused | broken => exact hrest false _ rest hcalls
  · have hrefused : settle slot (.enter w) script = (.raised .refused, .enter w, script) := by
      have hjournal : (Frame.enter w).world.journal slot = some r := hr
      simp only [settle, bind, Program.seq, look, hjournal, hpending]
      rfl
    rw [hrefused]
    exact hempty

end Settle

/-- What a settlement brings back is what the switch replaced, or its candidate alone. -/
theorem returns_settleBack : Returns r (settleBack r) := by
  rw [settleBack]
  split
  · exact .inl fun x hx => absurd hx not_mem_nil
  split
  · rename_i hnone
    exact .inr fun x hx y hy => alone_of_restore_nil hnone (mem_filter.mp hx).1 hy
  · exact .inl fun x hx => hx

/-- Where nothing else of the switch shares a Spark with what is brought back, its starts
are safe. -/
theorem settle_starts_alone (hr : w.journal slot = some r)
    (halone : ∀ x ∈ settleBack r, ∀ y ∈ r.involved, y ≠ x → overlap y.placement x.placement = false) :
    SafeStarts r.involved (settle slot (.enter w) script).2.1.calls := by
  refine settle_keeps (P := SafeStarts r.involved) hr trivial (fun _ h => h) (fun _ _ => safeStarts_down trivial)
    (fun _ _ _ h => safeStarts_down h) fun x hx b calls h => ⟨fun _ y hy hne hshare => ?_, h⟩
  rw [halone x hx y hy hne] at hshare
  cases hshare

/-- Where the stop of the candidate succeeds, a settlement starts nothing beside a
deployment that may run. -/
theorem settle_starts (hr : w.journal slot = some r) (hapart : r.Apart) (hstop : ∀ answer, script.head? = some answer → answer = .ok) :
    SafeStarts r.involved (settle slot (.enter w) script).2.1.calls := by
  rcases returns_settleBack (r := r) with hrestore | halone
  · refine settle_keeps (P := CandidateStopped r) hr trivial (fun _ h => h.1) (fun answer hanswer => ?_)
      (fun _ _ _ h => ⟨safeStarts_down h.1, stoppedSince_down h.2⟩) fun x hx b calls h => h.up hapart (hrestore x hx)
    rw [hstop answer hanswer]
    exact ⟨safeStarts_down trivial, stoppedSince_self⟩
  · exact settle_starts_alone hr fun x hx y hy hne => absurd (halone x hx y hy) hne

/-- The record an operation switches by. -/
def Operating.record (w : World) : Operating → Option Record
  | .execute call => some (call.record w)
  | .settle slot => w.journal slot

/-- The adapter calls of an operation, newest first. -/
def World.adapterCalls (fabric : List Placement) (w : World) (operating : Operating) (script : List Answer) : List AdapterCall :=
  ((operating.program fabric) (.enter w) script).2.1.calls

/-- The stop of the candidate, with which a settlement begins, succeeds, or nothing that the
switch replaced shares a Spark with the candidate. -/
def Operating.Confirmed (r : Record) (script : List Answer) : Operating → Prop
  | .execute _ => True
  | .settle _ => (∀ answer, script.head? = some answer → answer = .ok) ∨
      ∀ x ∈ r.restore, overlap r.candidate.placement x.placement = false

/-- No deployment is started beside one of its switch that may still run. -/
theorem starts_are_safe {fabric : List Placement} {w : World} {operating : Operating} {script : List Answer} {r : Record}
    (hr : operating.record w = some r) (hapart : r.Apart) (hstop : operating.Confirmed r script) :
    SafeStarts r.involved (w.adapterCalls fabric operating script) := by
  cases operating with
  | execute =>
    obtain rfl := Option.some.inj hr
    exact calls_of_triple (execute_starts hapart) ⟨rfl, rfl⟩
  | settle =>
    rcases hstop with hok | hshare
    · exact settle_starts hr hapart hok
    rcases returns_settleBack (r := r) with hrestore | halone
    · refine settle_starts_alone hr fun x hx y hy hne => ?_
      by_contra hboth
      rw [Bool.not_eq_false] at hboth
      have hcandidate := hapart.other (hrestore x hx) hy hne hboth
      rw [hcandidate, hshare x (hrestore x hx)] at hboth
      cases hboth
    · exact settle_starts_alone hr fun x hx y hy hne => absurd (halone x hx y hy) hne

/-- A candidate and the deployment it replaces. -/
def interrupted : Record := ⟨⟨"stuck", none⟩, some ⟨"old", none⟩, [], .starting⟩

/-- A switch crashed while it started its candidate. -/
def afterCrash : World where
  journal := Function.update (fun _ => none) none (some interrupted)
  active := Function.update (fun _ => none) none (some ⟨"old", none⟩)
  status := fun _ => .stopped
  log := []

/-- With every stop confirmed, the settlement brings the old deployment back safely. -/
theorem starts_are_safe_settled :
    (⟨⟨"old", none⟩, .up, true⟩ : AdapterCall) ∈ afterCrash.adapterCalls [none] (.settle none) (List.replicate 5 .ok) ∧
      SafeStarts interrupted.involved (afterCrash.adapterCalls [none] (.settle none) (List.replicate 5 .ok)) :=
  ⟨by decide +kernel, starts_are_safe rfl ⟨by decide, by decide⟩
    (.inl fun _ h => (Option.some.inj h).symm)⟩

/-- A settlement brings the old deployment back although the candidate's stop was refused. -/
theorem settle_starts_beside_candidate : (Operating.settle none).record afterCrash = some interrupted ∧ interrupted.Apart ∧
    ¬SafeStarts interrupted.involved (afterCrash.adapterCalls [none] (.settle none) [.refused, .ok, .ok]) :=
  ⟨rfl, ⟨by decide, by decide⟩, by decide +kernel⟩

end SparkRing.Rollout
