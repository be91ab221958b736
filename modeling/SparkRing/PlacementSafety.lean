import SparkRing.PlacementNames

/-!
# Placement through every interruption

Where contents change together with their size or modification time, and no link fails for
a name that exists, every name is recorded, placed entries with their recorded stats name
the recorded content, and a recovery that returns leaves placed names only.
-/

namespace SparkRing.Placement

open OrderedDict TransitionSystem
open Option (some.inj some_ne_none)

variable {Name Digest : Type*} [LinearOrder Name] {cfg : Config Name Digest} {files : Files} {parts : Name → Option ℕ}
  {name other : Name} {ino : ℕ} {work : Work Name Digest} {s t : State Name Digest} {journal journal' : Journal Name Digest}
  {outcome : Outcome} {entry : Entry Digest} {recovery : Recovery Name} {event : Event Name Digest}

/-- A recovery saves a journal that still records every name. -/
theorem Named.recovered (h : Named s) (hidle : ∀ name, s.work.get? name = none) (hregular : Regular s.files journal')
    (hnames : ∀ name ino, s.names name = some ino → RecordedFor journal' name ino) {rest : List Name}
    (hrest : ∀ name entry, journal'.files.get? name = some entry → name ∉ rest → Settled s name entry) :
    Named { s.saved journal' outcome with recovery := if outcome = .ok then some (.look rest) else none } := by
  constructor
  case names =>
    intro name ino hino
    refine ⟨?_, ?_⟩
    · dsimp only [State.saved]
      split
      · exact (h.names name ino hino).1
      · exact hnames name ino hino
    · rintro _ ⟨⟩
      exact hnames name ino hino
  case durable =>
    dsimp only [State.saved]
    split
    · exact h.durable
    · exact hregular
  case memory =>
    rintro _ ⟨⟩
    exact hregular
  case work => exact fun name work hwork => absurd ((hidle name).symm.trans hwork) (some_ne_none _).symm
  case recovery =>
    intro recovery journal hrecovery hjournal
    cases hjournal
    split at hrecovery
    · cases hrecovery
      exact hrest
    · cases hrecovery
  case alone => exact fun _ => hidle

theorem Named.recoverCall (h : Named s) (hmemory : s.memory = some journal) (hrecovery : s.recovery = some recovery)
    (hcall : recoverCall s journal outcome recovery = some t) : Named t := by
  have hidle : ∀ name, s.work.get? name = none := h.alone (hrecovery ▸ some_ne_none recovery)
  have hok := h.recovery recovery journal hrecovery hmemory
  have hgo : ∀ recovery' : Option (Recovery Name), (∀ recovery, recovery' = some recovery → RecoveryNamed s journal recovery) →
      Named { s with recovery := recovery' } := by
    intro recovery' hnamed
    refine ⟨h.names, h.durable, h.memory, fun name work hwork => absurd ((hidle name).symm.trans hwork) (some_ne_none _).symm,
      ?_, fun _ => hidle⟩
    intro recovery journal' heq hjournal'
    cases hmemory.symm.trans hjournal'
    have hold := hnamed recovery heq
    cases recovery with
    | look | drop | place => exact hold
  have hquit : Named { s with recovery := none } := hgo none fun _ hno => absurd hno (some_ne_none _).symm
  cases recovery with
  | look todo =>
    cases todo with
    | nil =>
      cases hcall
      exact hquit
    | cons name rest =>
      simp only [Placement.recoverCall] at hcall
      split at hcall
      · cases hcall
      · cases hcall
        exact hquit
      split at hcall
      · cases hcall
        exact hquit
      next entry hentry =>
        have hothers : ∀ other entry, journal.files.get? other = some entry → other ≠ name → other ∉ rest → Settled s other entry :=
          fun other entry hother hne hrest => hok other entry hother (List.not_mem_cons_of_ne_of_not_mem hne hrest)
        split at hcall
        next hgone =>
          cases hcall
          exact hgo _ fun _ heq => some.inj heq ▸ ⟨hgone, hothers⟩
        next ino hino =>
          -- a name shows the regular file that is recorded for it
          obtain ⟨entry', hentry', hidentity⟩ := (h.names name ino hino).2 journal hmemory
          cases hentry.symm.trans hentry'
          have hshown : s.names name = some entry.identity := hidentity ▸ hino
          have hregular := h.memory journal hmemory name entry hentry
          split at hcall
          next hforeign =>
            rcases hforeign with hne | hirregular
            · exact absurd hidentity.symm hne
            · rw [hidentity, hirregular] at hregular
              cases hregular
          · split at hcall
            · cases hcall
              exact hgo _ fun _ heq => some.inj heq ▸ ⟨⟨entry, hentry, hshown⟩, hothers⟩
            next hplaced =>
              cases hcall
              refine hgo _ fun _ heq => some.inj heq ▸ fun other entry' hother hrest => ?_
              by_cases hsame : other = name
              · subst hsame
                cases hentry.symm.trans hother
                refine ⟨?_, hshown⟩
                cases hstate : entry.state with
                | placing => exact absurd hstate hplaced
                | placed => rfl
              · exact hothers other entry' hother hsame hrest
  | drop =>
    cases hcall
    obtain ⟨hgone, hothers⟩ := hok
    refine h.recovered hidle ?_ ?_ ?_
    · exact fun other entry hentry => h.memory journal hmemory other entry (Dict.get?_erase_eq_some.mp hentry).2
    · intro other ino hino
      obtain ⟨entry, hentry, hidentity⟩ := (h.names other ino hino).2 journal hmemory
      refine ⟨entry, Dict.get?_erase_eq_some.mpr ⟨?_, hentry⟩, hidentity⟩
      rintro rfl
      exact absurd (hgone.symm.trans hino) (some_ne_none _).symm
    intro other entry hentry hrest
    obtain ⟨hne, hbefore⟩ := Dict.get?_erase_eq_some.mp hentry
    exact hothers other entry hbefore hne hrest
  | place name stats rest =>
    rw [Placement.recoverCall] at hcall
    split at hcall
    · cases hcall
      exact hquit
    next journal' hplace =>
      cases hcall
      obtain ⟨entry, hentry, -, rfl⟩ := Journal.of_place hplace
      obtain ⟨⟨entry', hentry', hshown⟩, hothers⟩ := hok
      cases hentry.symm.trans hentry'
      refine h.recovered hidle ?_ ?_ ?_
      · intro other entry' hother
        rcases Dict.get?_set_eq_some.mp hother with ⟨rfl, rfl⟩ | ⟨-, hbefore⟩
        · exact h.memory journal hmemory other entry hentry
        · exact h.memory journal hmemory other entry' hbefore
      · intro other ino hino
        by_cases hsame : other = name
        · subst hsame
          exact ⟨_, Dict.get?_set_self, some.inj (hshown.symm.trans hino)⟩
        · obtain ⟨recorded, hrecorded, hidentity⟩ := (h.names other ino hino).2 journal hmemory
          exact ⟨recorded, (Dict.get?_set_of_ne hsame).trans hrecorded, hidentity⟩
      intro other entry' hother hrest
      rcases Dict.get?_set_eq_some.mp hother with ⟨rfl, rfl⟩ | ⟨hne, hbefore⟩
      · exact ⟨rfl, hshown⟩
      · exact hothers other entry' hbefore hne hrest

/-- Every event keeps that names are recorded, where no link fails for a name that exists. -/
theorem Named.step [DecidableEq Digest] (h : Named s) (hkept : Kept s event) (hstep : step cfg s event = some t) : Named t := by
  cases moves_of_step hstep with
  | write => exact h.withFiles fun _ => regular_write
  | change => exact h.withFiles fun _ => regular_change
  | part =>
    refine ⟨h.names, h.durable, h.memory, fun name work hwork => (h.work name work hwork).congr rfl rfl rfl rfl, ?_, h.alone⟩
    intro recovery journal hrecovery hmemory
    have hold := h.recovery recovery journal hrecovery hmemory
    cases recovery with
    | look | drop | place => exact hold
  | load hquiet hnone =>
    refine ⟨fun name ino hino => ⟨(h.names name ino hino).1, ?_⟩, h.durable, ?_,
      fun name work hwork => absurd ((hnone name).symm.trans hwork) (some_ne_none _).symm, ?_, fun _ => hnone⟩
    · rintro _ ⟨⟩
      exact (h.names name ino hino).1
    · rintro _ ⟨⟩
      exact h.durable
    · intro recovery _ hrecovery
      exact absurd (hquiet.symm.trans hrecovery) (some_ne_none recovery).symm
  | recover hmemory hnone =>
    refine ⟨h.names, h.durable, h.memory, fun name work hwork => absurd ((hnone name).symm.trans hwork) (some_ne_none _).symm,
      ?_, fun _ => hnone⟩
    intro recovery journal' hrecovery hjournal'
    cases hmemory.symm.trans hjournal'
    cases hrecovery
    -- every recorded name is still to be looked at
    intro name entry hentry hnot
    exact absurd ((List.mem_insertionSort (· ≤ ·)).mpr (Dict.mem_keys_iff.mpr ⟨entry, hentry⟩)) hnot
  | settle hmemory hrecovery hcall => exact h.recoverCall hmemory hrecovery hcall
  | begins hready hwork =>
    simp only [State.ready, Bool.and_eq_true, Option.isNone_iff_eq_none] at hready
    refine h.goto hready.1.2 ?_
    cases hwork with
    | hash | staged | raised | look | remove | directories => trivial
  | call hmemory hwork hcall => exact h.call hmemory hwork hkept hcall
  | take =>
    refine ⟨h.names, h.durable, h.memory, fun other work hother => ?_, ?_, fun hrecovery other => ?_⟩
    · exact (h.work other work (Dict.get?_erase_eq_some.mp hother).2).congr rfl rfl rfl rfl
    · intro recovery journal hrecovery hmemory
      have hold := h.recovery recovery journal hrecovery hmemory
      cases recovery with
      | look | drop | place => exact hold
    · rw [Dict.get?_erase, h.alone hrecovery other, ite_self]
  | crash => exact ⟨fun name ino hino => ⟨(h.names name ino hino).1, fun _ hm => by cases hm⟩, h.durable, fun _ hm => (by cases hm),
    fun _ _ hwork => (by cases hwork), fun _ _ hrecovery => (by cases hrecovery), fun _ _ => rfl⟩

/-- No name is replaced, and no directory goes. -/
def KeepsNames (s t : State Name Digest) : Prop :=
  (∀ name, t.names name = s.names name ∨ s.names name = none ∨ t.names name = none) ∧ s.made ⊆ t.made

omit [LinearOrder Name] in
theorem KeepsNames.of_same (hnames : t.names = s.names) (hmade : t.made = s.made) : KeepsNames s t :=
  ⟨fun name => .inl (congrFun hnames name), hmade.ge⟩

theorem keepsNames_setName {shown : Option ℕ} (h : s.names name = none ∨ shown = none) : KeepsNames s ((s.setName name shown files).goto name work) := by
  refine ⟨fun other => ?_, subset_rfl⟩
  by_cases hsame : other = name
  · subst hsame
    exact .inr (h.imp id fun hgone => (Function.update_self _ _ _).trans hgone)
  · exact .inl (Function.update_of_ne hsame _ _)

theorem keepsNames_dropName {answer : Answer} : KeepsNames s (dropName s journal name outcome answer) := by
  unfold dropName
  split
  · exact .of_same rfl rfl
  · exact .of_same rfl rfl

theorem keepsNames_recordDirectories {wanted : List Name} : KeepsNames s (recordDirectories s journal name wanted outcome work) := by
  unfold recordDirectories
  split
  · exact .of_same rfl rfl
  · exact .of_same rfl rfl

theorem keepsNames_recoverCall (hcall : recoverCall s journal outcome recovery = some t) : KeepsNames s t := by
  cases recovery with
  | look todo =>
    cases todo with
    | nil =>
      cases hcall
      exact .of_same rfl rfl
    | cons =>
      simp only [recoverCall] at hcall
      repeat' split at hcall
      all_goals cases hcall
      all_goals exact .of_same rfl rfl
  | drop =>
    cases hcall
    exact .of_same rfl rfl
  | place =>
    rw [recoverCall] at hcall
    split at hcall
    · cases hcall
      exact .of_same rfl rfl
    · cases hcall
      exact .of_same rfl rfl

variable [DecidableEq Digest]

theorem keepsNames_placeCall : KeepsNames s (placeCall cfg s journal name outcome work) := by
  cases work with
  | record => exact keepsNames_recordDirectories
  | forget => exact keepsNames_dropName
  | parents job todo =>
    cases todo with
    | nil => exact .of_same rfl rfl
    | cons => exact ⟨fun _ => .inl rfl, Finset.subset_insert _ _⟩
  | link job =>
    rw [placeCall]
    split
    next hnone => exact keepsNames_setName (.inl hnone)
    · exact .of_same rfl rfl
  | undo =>
    rw [placeCall]
    split
    · exact .of_same rfl rfl
    · exact keepsNames_setName (.inr rfl)
  | inspect | sync | part => exact .of_same rfl rfl
  | hash | staged | final | confirm | again | unchanged | begin | taken | shown | after | unstage | afterwards | place =>
    simp only [placeCall]
    repeat' split
    all_goals exact .of_same rfl rfl
  | _ => exact .of_same rfl rfl

theorem keepsNames_checkCall : KeepsNames s (checkCall cfg s journal name outcome work) := by
  cases work with
  | missing | dropped => exact keepsNames_dropName
  | directories => exact keepsNames_recordDirectories
  | synced => exact .of_same rfl rfl
  | unlink =>
    rw [checkCall]
    split
    · exact .of_same rfl rfl
    · exact keepsNames_setName (.inr rfl)
  | look | reopen | read | reread | settle | remove =>
    simp only [checkCall]
    repeat' split
    all_goals exact .of_same rfl rfl
  | _ => exact .of_same rfl rfl

/-- No event replaces a name or removes a directory. -/
theorem keepsNames_step (hstep : step cfg s event = some t) : KeepsNames s t := by
  cases moves_of_step hstep with
  | call hmemory hwork hcall =>
    unfold call at hcall
    split at hcall
    · cases hcall
    split at hcall
    · cases hcall
      split
      · exact keepsNames_placeCall
      · exact keepsNames_checkCall
    split at hcall
    all_goals cases hcall
    all_goals exact .of_same rfl rfl
  | settle hmemory hrecovery hcall => exact keepsNames_recoverCall hcall
  | _ => exact .of_same rfl rfl

/-- A write does not bring back a size and a modification time that stand for a digest. -/
def Renewing (s : State Name Digest) : Event Name Digest → Prop
  | .write ino content mtime => ∀ stats sha256, Pending s stats sha256 → stats.ino = ino →
    (content.length, mtime) ≠ (stats.size, stats.mtime)
  | _ => True

/-- What holds of the checkpoint directory at every moment. -/
structure Survives (cfg : Config Name Digest) (s : State Name Digest) : Prop where
  /-- Every name is recorded with the inode that it shows. -/
  recorded : ∀ name ino, s.names name = some ino → RecordedBoth s name ino
  /-- A placed entry whose name shows its recorded stats names content with the recorded digest. -/
  vouched : ∀ journal, (journal = s.durable ∨ s.memory = some journal) → ∀ name entry ino, journal.files.get? name = some entry →
    entry.state = .placed → s.names name = some ino → s.files.stats ino = entry.stats → cfg.digest (s.files ino).content = entry.sha256
  settled : ∀ journal, s.memory = some journal → s.recovery = some (.look []) → ∀ name entry,
    journal.files.get? name = some entry → Settled s name entry

/-- In every run in which contents change together with their size or modification time and no link
fails for a name that exists, placement survives, no name is replaced and no directory is removed. -/
theorem placement_survives (h : Reachable (step cfg) (fun s event => Renewing s event ∧ Kept s event) (init files parts) s) :
    Survives cfg s ∧ ∀ event t, step cfg s event = some t → KeepsNames s t := by
  have hhonest : Reachable (step cfg) (Honest cfg) (init files parts) s := by
    refine h.mono fun s event hgood => ?_
    cases event with
    | write =>
      exact fun stats sha256 hpending hino hsize hmtime => absurd (Prod.ext hsize hmtime) (hgood.1 stats sha256 hpending hino)
    | _ => trivial
  have hcontent := content_of_reachable hhonest
  have hnamed : Named s := by
    refine h.invariant Named ?_ fun _ _ _ _ hnamed hgood hstep => hnamed.step hgood.2 hstep
    exact ⟨nofun, nofun, nofun, nofun, nofun, fun _ _ => rfl⟩
  refine ⟨⟨hnamed.names, ?_, ?_⟩, fun event t => keepsNames_step⟩
  · intro journal hjournal name entry ino hentry hplaced _ hstats
    have hok : EntryOk cfg s.files entry := by
      rcases hjournal with rfl | hmemory
      · exact hcontent.durable name entry hentry
      · exact hcontent.memory journal hmemory name entry hentry
    obtain rfl : ino = entry.stats.ino := congrArg Stats.ino hstats
    exact hok.backed hplaced hstats
  · intro journal hmemory hrecovery name entry hentry
    exact hnamed.recovery _ journal hrecovery hmemory name entry hentry (List.not_mem_nil)

/-- A system call fails. -/
def Event.fails : Event ℕ (List UInt8) → Bool
  | .call _ .failed => true
  | _ => false

/-- A file is placed, and placing it again begins. -/
def again : List (Event ℕ (List UInt8)) :=
  [.load, .openFile 0 7 1 [1] .link none] ++ List.replicate 11 (.call 0 .ok) ++
    [.take 0, .openFile 0 7 1 [1] .link none] ++ List.replicate 6 (.call 0 .ok)

/-- A second placement of a name under which its file is found, and a recovery after it. -/
theorem placement_survives_again : ∃ s : State ℕ (List UInt8),
    Reachable (step plain) (fun s event => Renewing s event ∧ Kept s event) (init source fun _ => none) s ∧ s.names 0 = some 7 ∧
      Survives plain s ∧ ∀ event t, step plain s event = some t → KeepsNames s t := by
  have hcheck : ∀ (s : State ℕ (List UInt8)) event, (!event.writes && !event.fails) = true →
      Renewing s event ∧ Kept s event := by
    intro s event hno
    cases event with
    | write => exact absurd hno (by simp [Event.writes])
    | call name outcome =>
      cases outcome with
      | failed => exact absurd hno (by simp [Event.fails])
      | ok | late => exact ⟨trivial, trivial⟩
    | _ => exact ⟨trivial, trivial⟩
  obtain ⟨s, hs, hname⟩ := Reachable.exists_of_checked_runs
    (fun _ event => !event.writes && !event.fails) hcheck (step plain) (init source fun _ => none)
    (again ++ List.replicate 2 (.call 0 .ok) ++ [.crash, .load, .recover, .settle .ok, .settle .ok])
    (fun s => decide (s.names 0 = some 7 ∧ s.recovery = some (.look []))) (by decide +kernel)
  exact ⟨s, hs, (of_decide_eq_true hname).1, placement_survives hs⟩

/-- The link of a placed name fails otherwise than because it exists, and its entry is dropped. -/
theorem placed_name_forgotten : ∃ s : State ℕ (List UInt8),
    runs (step plain) (init source fun _ => none) (again ++ [.call 0 .failed, .call 0 .ok]) = some s ∧
      s.names 0 = some 7 ∧ ¬RecordedFor s.durable 0 7 ∧ ¬Survives plain s := by
  obtain ⟨s, hs, hfacts⟩ : ∃ s, runs (step plain) (init source fun _ => none) (again ++ [.call 0 .failed, .call 0 .ok]) = some s ∧
      decide (s.names 0 = some 7 ∧ (s.durable.files.get? 0).isNone) = true := Option.map_eq_some_iff.mp (by decide +kernel)
  obtain ⟨hname, hnone⟩ := of_decide_eq_true hfacts
  have hlost : ¬RecordedFor s.durable 0 7 := by
    rintro ⟨entry, hentry, -⟩
    rw [hentry] at hnone
    cases hnone
  exact ⟨s, hs, hname, hlost, fun hsurvives => hlost (hsurvives.recorded 0 7 hname).1⟩

end SparkRing.Placement
