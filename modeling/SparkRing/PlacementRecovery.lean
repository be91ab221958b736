import SparkRing.PlacementInvariant

/-!
# Recovery and content nobody read

A recovery takes the current stats of a name whose size and modification time equal the
recorded ones, since the link itself moved the change time. A writer that restored both
after the crash is not noticed. Where no write restores them with another content, a
verified name has the recorded content.
-/

namespace SparkRing.Placement

open OrderedDict TransitionSystem

variable {Name Digest : Type*} [LinearOrder Name] {cfg : Config Name Digest} {files : Files}
  {parts : Name → Option ℕ} {name other : Name} {work : Work Name Digest} {s t : State Name Digest}
  {journal : Journal Name Digest} {outcome : Outcome} {entry : Entry Digest} {event : Event Name Digest} {pin : Digest} {recovery : Recovery Name}

/-- The work on a name goes on, and other work does not change. -/
def GoesOn (s : State Name Digest) (name : Name) (t : State Name Digest) : Prop :=
  ∃ (s' : State Name Digest) (work : Work Name Digest), t = s'.goto name work ∧ s'.work = s.work

theorem GoesOn.elsewhere (h : GoesOn s name t) (hne : other ≠ name) : t.work.get? other = s.work.get? other := by
  obtain ⟨s', work, rfl, hwork⟩ := h
  exact (Dict.get?_set_of_ne hne).trans (congrArg (Dict.get? · other) hwork)

theorem goesOn_dropName {answer : Answer} : GoesOn s name (dropName s journal name outcome answer) := by
  unfold dropName
  split
  · exact ⟨_, _, rfl, rfl⟩
  · exact ⟨_, _, rfl, rfl⟩

theorem goesOn_recordDirectories {wanted : List Name} : GoesOn s name (recordDirectories s journal name wanted outcome work) := by
  unfold recordDirectories
  split
  · exact ⟨_, _, rfl, rfl⟩
  · exact ⟨_, _, rfl, rfl⟩

theorem work_recoverCall (hcall : recoverCall s journal outcome recovery = some t) : t.work = s.work := by
  cases recovery with
  | look todo =>
    cases todo with
    | nil =>
      cases hcall
      rfl
    | cons =>
      simp only [recoverCall] at hcall
      repeat' split at hcall
      all_goals cases hcall
      all_goals rfl
  | drop =>
    cases hcall
    rfl
  | place =>
    rw [recoverCall] at hcall
    split at hcall
    · cases hcall
      rfl
    · cases hcall
      rfl

variable [DecidableEq Digest]

theorem goesOn_placeCall : GoesOn s name (placeCall cfg s journal name outcome work) := by
  cases work with
  | record => exact goesOn_recordDirectories
  | forget => exact goesOn_dropName
  | parents job todo =>
    cases todo with
    | nil | cons => exact ⟨_, _, rfl, rfl⟩
  | inspect | sync | part => exact ⟨_, _, rfl, rfl⟩
  | hash | staged | final | confirm | again | unchanged | begin | link | taken | shown | after | undo | unstage | afterwards | place =>
    simp only [placeCall]
    repeat' split
    all_goals exact ⟨_, _, rfl, rfl⟩
  | _ => exact ⟨_, _, rfl, rfl⟩

theorem goesOn_checkCall : GoesOn s name (checkCall cfg s journal name outcome work) := by
  cases work with
  | missing | dropped => exact goesOn_dropName
  | directories => exact goesOn_recordDirectories
  | synced => exact ⟨_, _, rfl, rfl⟩
  | look | reopen | read | reread | settle | remove | unlink =>
    simp only [checkCall]
    repeat' split
    all_goals exact ⟨_, _, rfl, rfl⟩
  | _ => exact ⟨_, _, rfl, rfl⟩

theorem goesOn_call (hcall : call cfg s journal name outcome work = some t) : GoesOn s name t := by
  unfold call at hcall
  split at hcall
  · cases hcall
  split at hcall
  · cases hcall
    split
    · exact goesOn_placeCall
    · exact goesOn_checkCall
  split at hcall
  all_goals cases hcall
  all_goals exact ⟨_, _, rfl, rfl⟩

/-- A check answers that a name is verified against a pin. -/
def Verifies (s t : State Name Digest) (name : Name) (pin : Digest) : Prop :=
  (∃ size, s.work.get? name = some (.look size pin)) ∧ t.work.get? name = some (.done .verified)

/-- The file of a name has the digest that the journal of the process records, and it is the pin. -/
def VerifiedContent (cfg : Config Name Digest) (s : State Name Digest) (name : Name) (pin : Digest) : Prop :=
  ∃ ino journal entry, s.names name = some ino ∧ s.memory = some journal ∧ journal.files.get? name = some entry ∧
    cfg.digest (s.files ino).content = entry.sha256 ∧ entry.sha256 = pin

theorem verifies_look {size : ℕ} (hmemory : s.memory = some journal) (hcall : call cfg s journal name outcome (.look size pin) = some t)
    (hdone : t.work.get? name = some (.done .verified)) :
    ∃ ino journal entry, s.names name = some ino ∧ s.memory = some journal ∧ journal.files.get? name = some entry ∧
      entry.state = .placed ∧ s.files.stats ino = entry.stats ∧ entry.sha256 = pin ∧ t = s.goto name (.done .verified) := by
  have hgoto : ∀ work : Work Name Digest, work ≠ .done .verified → some (s.goto name work) ≠ some t := by
    rintro work hwork heq
    cases heq
    exact hwork (Option.some.inj (Dict.get?_set_self.symm.trans hdone))
  cases outcome with
  | ok =>
    change some (checkCall cfg s journal name .ok (.look size pin)) = some t at hcall
    rw [checkCall] at hcall
    split at hcall
    · exact absurd hcall (hgoto _ (by simp))
    next entry hentry =>
      split at hcall
      · exact absurd hcall (hgoto _ (by simp))
      next hplaced =>
        split at hcall
        · exact absurd hcall (hgoto _ (by simp))
        next ino hname =>
          split at hcall
          · exact absurd hcall (hgoto _ (by simp))
          split at hcall
          next hsame =>
            cases hcall
            exact ⟨ino, journal, entry, hname, hmemory, hentry, not_not.mp hplaced, hsame.1, hsame.2, rfl⟩
          · exact absurd hcall (hgoto _ (by simp))
  | failed => exact absurd hcall (hgoto _ (by simp))
  | late => cases hcall

/-- Only the stat of a check verifies, where all five stats equal the journal. -/
theorem of_verifies (hstep : step cfg s event = some t) (h : Verifies s t name pin) :
    ∃ ino journal entry, s.names name = some ino ∧ s.memory = some journal ∧ journal.files.get? name = some entry ∧
      entry.state = .placed ∧ s.files.stats ino = entry.stats ∧ entry.sha256 = pin ∧ t = s.goto name (.done .verified) := by
  obtain ⟨⟨size, hlook⟩, hdone⟩ := h
  have hsame : ∀ t' : State Name Digest, t'.work.get? name = s.work.get? name → t' ≠ t := by
    rintro t' hwork rfl
    cases hlook.symm.trans (hwork.symm.trans hdone)
  cases moves_of_step hstep with
  | write | change | part | load | recover => exact absurd rfl (hsame _ rfl)
  | settle _ _ hcall => exact absurd rfl (hsame _ (congrArg (Dict.get? · name) (work_recoverCall hcall)))
  | @begins _ other _ hready =>
    refine absurd rfl (hsame _ (Dict.get?_set_of_ne ?_))
    rintro rfl
    simp [State.ready, hlook] at hready
  | @call _ _ other _ _ hmemory hwork hcall =>
    by_cases hne : name = other
    · subst hne
      cases hlook.symm.trans hwork
      exact verifies_look hmemory hcall hdone
    · exact absurd rfl (hsame _ ((goesOn_call hcall).elsewhere hne))
  | take hother =>
    refine absurd rfl (hsame _ (Dict.get?_erase_of_ne ?_))
    rintro rfl
    cases hlook.symm.trans hother
  | crash => cases hdone

/-- In every run in which no write restores the size and the modification time of a file that is
being placed with another content, every name that a check verifies has the recorded content. -/
theorem verified_content (h : Reachable (step cfg) (Honest cfg) (init files parts) s) (hstep : step cfg s event = some t)
    (hverifies : Verifies s t name pin) : VerifiedContent cfg t name pin := by
  obtain ⟨ino, journal, entry, hname, hmemory, hentry, hplaced, hstats, hpin, rfl⟩ := of_verifies hstep hverifies
  refine ⟨ino, journal, entry, hname, hmemory, hentry, ?_, hpin⟩
  obtain rfl : ino = entry.stats.ino := congrArg Stats.ino hstats
  exact ((content_of_reachable h).memory journal hmemory name entry hentry).backed hplaced hstats

/-- Contents stand for their own digests, and names need no directories. -/
def plain : Config ℕ (List UInt8) := ⟨id, fun _ => [], 0⟩

/-- A file of one byte. -/
def source : Files := fun _ => ⟨[1], 5, 0, 1, 0, false, true⟩

/-- The file is hashed, recorded and linked, and the process ends before it records that. -/
def interrupted : List (Event ℕ (List UInt8)) :=
  [.load, .openFile 0 7 1 [1] .link none, .call 0 .ok, .call 0 .ok, .call 0 .ok, .call 0 .ok, .call 0 .ok, .call 0 .ok, .call 0 .ok,
    .crash]

/-- The next process loads the journal, settles it and checks the name. -/
def resumed : List (Event ℕ (List UInt8)) := [.load, .recover, .settle .ok, .settle .ok, .settle .ok, .check 0 1 [1]]

/-- A writer changes a file. -/
def Event.writes : Event ℕ (List UInt8) → Bool
  | .write .. => true
  | _ => false

/-- A change of the mode after the crash is taken with the link's, and the name is verified. -/
theorem verified_content_changed : ∃ s t : State ℕ (List UInt8), Reachable (step plain) (Honest plain) (init source fun _ => none) s ∧
    step plain s (.call 0 .ok) = some t ∧ Verifies s t 0 [1] ∧ VerifiedContent plain t 0 [1] := by
  -- a run without writes is honest
  have hcheck : ∀ (s : State ℕ (List UInt8)) event, (!event.writes) = true → Honest plain s event := by
    intro s event hno
    cases event with
    | write => exact absurd hno (by simp [Event.writes])
    | _ => trivial
  obtain ⟨s, hs, hp⟩ := Reachable.exists_of_checked_runs (fun _ event => !event.writes) hcheck (step plain)
    (init source fun _ => none) (interrupted ++ .change 7 2 0 true :: resumed)
    (fun s => (step plain s (.call 0 .ok)).any fun t : State ℕ (List UInt8) =>
      decide (s.work.get? 0 = some (.look 1 [1]) ∧ t.work.get? 0 = some (.done .verified))) (by decide +kernel)
  obtain ⟨t, ht, hfacts⟩ := (Option.any_eq_true _ _).mp hp
  obtain ⟨hlook, hdone⟩ := of_decide_eq_true hfacts
  exact ⟨s, t, hs, ht, ⟨⟨1, hlook⟩, hdone⟩, verified_content hs ht ⟨⟨1, hlook⟩, hdone⟩⟩

/-- A writer leaves another byte and the modification time of before, and the name is verified. -/
theorem vouched_for_unread : ∃ crashed s t : State ℕ (List UInt8),
    runs (step plain) (init source fun _ => none) interrupted = some crashed ∧ crashed.names 0 = some 7 ∧
      (crashed.files 7).content = [1] ∧ runs (step plain) crashed (.write 7 [2] 5 :: resumed) = some s ∧
      step plain s (.call 0 .ok) = some t ∧ Verifies s t 0 [1] ∧ ¬VerifiedContent plain t 0 [1] := by
  have hrun : ((runs (step plain) (init source fun _ => none) interrupted).bind fun crashed =>
      (runs (step plain) crashed (.write 7 [2] 5 :: resumed)).bind fun s => (step plain s (.call 0 .ok)).map fun t =>
        decide (crashed.names 0 = some 7 ∧ (crashed.files 7).content = [1] ∧ s.work.get? 0 = some (.look 1 [1]) ∧
          t.work.get? 0 = some (.done .verified) ∧ t.names 0 = some 7 ∧ (t.files 7).content = [2])) = some true := by
    decide +kernel
  obtain ⟨crashed, hcrashed, hrest⟩ := Option.bind_eq_some_iff.mp hrun
  obtain ⟨s, hs, hlast⟩ := Option.bind_eq_some_iff.mp hrest
  obtain ⟨t, ht, hfacts⟩ := Option.map_eq_some_iff.mp hlast
  obtain ⟨hname, hbefore, hlook, hdone, hname', hcontent⟩ := of_decide_eq_true hfacts
  refine ⟨crashed, s, t, hcrashed, hname, hbefore, hs, ht, ⟨⟨1, hlook⟩, hdone⟩, ?_⟩
  rintro ⟨ino, journal, entry, hino, -, -, hdigest, hpin⟩
  cases hname'.symm.trans hino
  rw [hcontent, hpin] at hdigest
  exact absurd hdigest (by decide)

end SparkRing.Placement
