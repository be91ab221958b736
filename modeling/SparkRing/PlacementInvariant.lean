import SparkRing.PlacementContent

/-!
# Every event keeps what recorded stats stand for

Time passes for the files, work goes on, and journals are saved. Each keeps the invariant,
and every system call is made of them.
-/

namespace SparkRing.Placement

open OrderedDict TransitionSystem
open Placement (checkCall placeCall recoverCall)

variable {Name Digest : Type*} {cfg : Config Name Digest} {files files' : Files} {stats : Stats} {sha256 : Digest}
  {content : List UInt8} {ino mtime nlink uid : ℕ} {shared : Bool} {name other : Name} {job : Job Name Digest}
  {work : Work Name Digest} {s t : State Name Digest} {journal journal' : Journal Name Digest} {outcome : Outcome}
  {entry : Entry Digest} {recovery : Recovery Name} {memory : Option (Journal Name Digest)}

/-- A link, or a change of the owner or the mode, moves the change time only. -/
theorem Tied.change (h : Tied cfg files stats sha256) : Tied cfg (files.change ino nlink uid shared) stats sha256 := by
  obtain ⟨hcontent, hmtime⟩ := files.change_same ino nlink uid stats.ino shared
  intro hkey
  rw [Files.stats, Stats.contentKey, hcontent, hmtime] at hkey
  rw [hcontent]
  exact h hkey

/-- A write keeps it where it does not restore the size and the modification time with another digest. -/
theorem Tied.write (h : Tied cfg files stats sha256)
    (hhonest : stats.ino = ino → content.length = stats.size → mtime = stats.mtime → cfg.digest content = sha256) :
    Tied cfg (files.write ino content mtime) stats sha256 := by
  intro hkey
  unfold Files.write Files.stats Stats.contentKey at hkey
  unfold Files.write
  by_cases hsame : stats.ino = ino
  · rw [hsame, Function.update_self] at hkey ⊢
    simp only [Prod.mk.injEq] at hkey
    exact hhonest hsame hkey.2.1 hkey.2.2
  · rw [Function.update_of_ne hsame] at hkey ⊢
    exact h hkey

theorem EntryOk.later (h : EntryOk cfg files entry) (hlater : files.Later files')
    (htied : entry.state = .placing → Tied cfg files entry.stats entry.sha256 → Tied cfg files' entry.stats entry.sha256) :
    EntryOk cfg files' entry where
  seen := h.seen.later hlater
  ino := h.ino
  tied hplacing := htied hplacing (h.tied hplacing)
  backed hplaced := (h.backed hplaced).later h.seen hlater

theorem Held.later (h : Held files job) (hlater : files.Later files') : Held files' job := ⟨h.seen.later hlater, h.ino⟩

section Invariant

variable [LinearOrder Name]

theorem WorkOk.later (h : WorkOk cfg files memory name work) (hlater : files.Later files')
    (htied : ∀ job, work.pending = some job → Tied cfg files job.before job.sha256 → Tied cfg files' job.before job.sha256) :
    WorkOk cfg files' memory name work := by
  cases work with
  | hash | inspect | staged | final | confirm => exact ⟨h.1.later hlater, h.2.later h.1.seen hlater⟩
  | again | unchanged => exact ⟨h.1.later hlater, h.2.1, h.2.2.1.later hlater, h.2.2.2.later h.2.2.1 hlater⟩
  | record | parents | begin => exact ⟨h.1.later hlater, htied _ rfl h.2⟩
  | link | taken | sync | shown | after | undo | part | unstage | afterwards =>
    exact ⟨h.1.later hlater, htied _ rfl h.2.1, h.2.2⟩
  | place => exact ⟨h.1.later hlater, h.2.1.later h.1 hlater, h.2.2⟩
  | read | reread | settle => exact ⟨h.1.later hlater, h.2.later h.1 hlater⟩
  | _ => trivial

theorem RecoveryOk.later (h : RecoveryOk cfg files memory recovery) (hlater : files.Later files') :
    RecoveryOk cfg files' memory recovery := by
  cases recovery with
  | place =>
    exact ⟨h.1.later hlater, fun journal entry hjournal hentry => (h.2 journal entry hjournal hentry).later h.1 hlater⟩
  | _ => trivial

section

variable (h : Content cfg s)

include h

/-- The files change, and every size and modification time that stands for a digest still does. -/
theorem Content.later (hlater : s.files.Later files')
    (htied : ∀ stats sha256, Pending s stats sha256 → Tied cfg s.files stats sha256 → Tied cfg files' stats sha256) :
    Content cfg { s with files := files' } := { h with
  durable name entry hentry := (h.durable name entry hentry).later hlater fun hplacing =>
    htied _ _ (.inl ⟨s.durable, .inl rfl, name, entry, hentry, hplacing, rfl, rfl⟩)
  memory journal hjournal name entry hentry := (h.memory journal hjournal name entry hentry).later hlater fun hplacing =>
    htied _ _ (.inl ⟨journal, .inr hjournal, name, entry, hentry, hplacing, rfl, rfl⟩)
  work name work hwork := (h.work name work hwork).later hlater fun job hpending =>
    htied _ _ (.inr ⟨name, work, job, hwork, hpending, rfl, rfl⟩)
  recovery recovery hrecovery := (h.recovery recovery hrecovery).later hlater }

theorem Content.change : Content cfg { s with files := s.files.change ino nlink uid shared } :=
  h.later Files.later_change fun _ _ _ htied => htied.change

theorem Content.write (hhonest : Honest cfg s (.write ino content mtime)) :
    Content cfg { s with files := s.files.write ino content mtime } :=
  h.later Files.later_write fun stats sha256 hpending htied => htied.write (hhonest stats sha256 hpending)

/-- No recovery is in flight while work is. -/
theorem Content.busy (hwork : s.work.get? name = some work) : s.recovery = none := by
  by_contra hrecovery
  rw [h.alone hrecovery name] at hwork
  cases hwork

theorem Content.goto (hquiet : s.recovery = none) (hwork : WorkOk cfg s.files s.memory name work) :
    Content cfg (s.goto name work) := { h with
  work other work' hother := by
    rcases Dict.get?_set_eq_some.mp hother with ⟨rfl, rfl⟩ | ⟨-, hbefore⟩
    · exact hwork
    · exact h.work other work' hbefore
  alone hrecovery := absurd hquiet hrecovery }

theorem Content.raise (hquiet : s.recovery = none) : Content cfg (s.raise name) := h.goto hquiet trivial

end

/-- A save that leaves the other names as they were keeps the work on them. -/
theorem WorkOk.frame (h : WorkOk cfg files (some journal) name work) (hframe : journal'.files.get? name = journal.files.get? name) :
    WorkOk cfg files (some journal') name work := by
  have hrecorded : ∀ job, Recorded (some journal) name job → Recorded (some journal') name job := by
    rintro job ⟨_, entry, ⟨⟩, hentry, hsha⟩
    exact ⟨journal', entry, rfl, hframe.trans hentry, hsha⟩
  cases work with
  | link | taken | sync | shown | after | undo | part | unstage | afterwards | place => exact ⟨h.1, h.2.1, hrecorded _ h.2.2⟩
  | _ => exact h

theorem Content.saved (h : Content cfg s) (hjournal' : JournalOk cfg s.files journal')
    (hwork : ∀ name work, s.work.get? name = some work → WorkOk cfg s.files (some journal') name work)
    (hrecovery : ∀ recovery, s.recovery = some recovery → RecoveryOk cfg s.files (some journal') recovery) :
    Content cfg (s.saved journal' outcome) := { h with
  durable := by
    dsimp only [State.saved]
    split
    · exact h.durable
    · exact hjournal'
  memory _ hjournal := by
    cases hjournal
    exact hjournal'
  work := hwork
  recovery := hrecovery }

section

variable (h : Content cfg s) (hquiet : s.recovery = none) (hmemory : s.memory = some journal)

include h hquiet hmemory

/-- Work saves a journal that differs in its own name only. -/
theorem Content.save
    (hjournal' : JournalOk cfg s.files journal') (hframe : ∀ other, other ≠ name → journal'.files.get? other = journal.files.get? other)
    (hwork : WorkOk cfg s.files (some journal') name work) : Content cfg (s.save name journal' outcome work) := by
  constructor
  case durable =>
    dsimp only [State.save, State.saved, State.goto]
    split
    · exact h.durable
    · exact hjournal'
  case memory =>
    rintro _ ⟨⟩
    exact hjournal'
  case work =>
    intro other work' hother
    rcases Dict.get?_set_eq_some.mp hother with ⟨rfl, rfl⟩ | ⟨hne, hbefore⟩
    · split
      · exact hwork
      · trivial
    have hold := h.work other work' hbefore
    rw [hmemory] at hold
    exact hold.frame (hframe other hne)
  case recovery =>
    intro recovery hrecovery
    exact absurd (hquiet.symm.trans hrecovery) (Option.some_ne_none recovery).symm
  case alone => exact fun hrecovery => absurd hquiet hrecovery

omit h hquiet hmemory in
theorem JournalOk.drop (h : JournalOk cfg files journal) : JournalOk cfg files (journal.drop name) := fun other entry hentry =>
  h other entry (Dict.get?_erase_eq_some.mp hentry).2

omit h hquiet hmemory in
theorem JournalOk.set (h : JournalOk cfg files journal) (hentry : EntryOk cfg files entry) {directories : Finset Name} :
    JournalOk cfg files ⟨journal.files.set name entry, directories⟩ := by
  intro other entry' hother
  rcases Dict.get?_set_eq_some.mp hother with ⟨rfl, rfl⟩ | ⟨-, hbefore⟩
  · exact hentry
  · exact h other entry' hbefore

theorem Content.dropName {answer : Answer} : Content cfg (dropName s journal name outcome answer) := by
  unfold Placement.dropName
  split
  · exact h.save hquiet hmemory (h.memory journal hmemory).drop (fun other hne => Dict.get?_erase_of_ne hne) trivial
  · exact h.goto hquiet trivial

theorem Content.recordDirectories {wanted : List Name} (hwork : ∀ memory, WorkOk cfg s.files memory name work) :
    Content cfg (recordDirectories s journal name wanted outcome work) := by
  unfold Placement.recordDirectories
  split
  · exact h.goto hquiet (hwork s.memory)
  · exact h.save hquiet hmemory (h.memory journal hmemory) (fun _ _ => rfl) (hwork _)

end

/-- A name of which the digest is recorded is placed with stats that stand for it. -/
theorem JournalOk.place (h : JournalOk cfg files journal) (hplace : journal.place name stats = some journal') (hseen : Seen files stats)
    (hbacked : ∀ entry, journal.files.get? name = some entry → Backed cfg files stats entry.sha256) : JournalOk cfg files journal' := by
  obtain ⟨entry, hentry, hino, rfl⟩ := Journal.of_place hplace
  exact h.set { seen := hseen, ino := hino, tied := (Stage.noConfusion ·), backed := fun _ => hbacked entry hentry }

/-- A name that is checked takes the pin and the stats, and the other names stay as they were. -/
theorem Journal.of_rehash {pin : Digest} (h : journal.rehash name pin stats = some journal') :
    ∃ entry, journal.files.get? name = some entry ∧ stats.ino = entry.identity ∧
      journal'.files.get? name = some { entry with state := .placed, sha256 := pin, stats := stats } ∧
      ∀ other, other ≠ name → journal'.files.get? other = journal.files.get? other := by
  unfold Journal.rehash at h
  split at h
  · cases h
  next entry hentry =>
    obtain ⟨entry', hentry', hino, rfl⟩ := Journal.of_place h
    cases Dict.get?_set_self.symm.trans hentry'
    exact ⟨entry, hentry, hino, Dict.get?_set_self, fun other hne => (Dict.get?_set_of_ne hne).trans (Dict.get?_set_of_ne hne)⟩

variable [DecidableEq Digest]

section

variable (h : Content cfg s) (hmemory : s.memory = some journal) (hwork : s.work.get? name = some work)

include h hmemory hwork

theorem Content.placeCall : Content cfg (placeCall cfg s journal name outcome work) := by
  have hquiet := h.busy hwork
  have hok := h.work name work hwork
  cases work with
  | hash job read =>
    obtain ⟨hheld, hbegun⟩ := hok
    rw [placeCall, ← hheld.ino]
    split
    next read' hnext => exact h.goto hquiet ⟨hheld, hbegun.more hnext⟩
    next hnext =>
      split
      next hdigest =>
        have hbacked : Backed cfg s.files job.before job.sha256 := hdigest ▸ hbegun.whole hnext
        refine h.goto hquiet ?_
        split
        · exact ⟨hheld, hbacked⟩
        · exact ⟨hheld, hbacked⟩
      · exact h.raise hquiet
    · exact h.raise hquiet
  | inspect => exact h.goto hquiet hok
  | staged | shown =>
    rw [placeCall]
    split
    · exact h.raise hquiet
    · exact h.goto hquiet hok
  | final job mode same =>
    rw [placeCall]
    generalize (if s.names name = some job.ino then 2 else 1) = links
    split
    · exact h.goto hquiet hok
    · exact h.raise hquiet
  | confirm job =>
    obtain ⟨hheld, hbacked⟩ := hok
    rw [placeCall, ← hheld.ino]
    split
    · exact h.raise hquiet
    next hkey =>
      split
      next hsame => exact h.goto hquiet ⟨hheld, tied_of_digest (hbacked hsame)⟩
      · refine h.goto hquiet ⟨hheld, not_not.mp (not_or.mp hkey).2, seen_stats, begun_nil⟩
  | again job current read =>
    obtain ⟨hheld, hkey, hseen, hbegun⟩ := hok
    have hino : current.ino = job.ino := (congrArg Prod.fst hkey).trans hheld.ino
    rw [placeCall, ← hino]
    split
    next read' hnext => exact h.goto hquiet ⟨hheld, hkey, hseen, hbegun.more hnext⟩
    next hnext =>
      split
      next hdigest => exact h.goto hquiet ⟨hheld, hkey, hseen, hdigest ▸ hbegun.whole hnext⟩
      · exact h.raise hquiet
    · exact h.raise hquiet
  | unchanged job current =>
    obtain ⟨hheld, hkey, hseen, hbacked⟩ := hok
    have hino : current.ino = job.ino := (congrArg Prod.fst hkey).trans hheld.ino
    rw [placeCall, ← hino]
    split
    next hsame =>
      refine h.goto hquiet ⟨hheld, tied_of_digest ?_⟩
      rw [hheld.ino, ← hino]
      exact hbacked hsame
    · exact h.raise hquiet
  | record => exact h.recordDirectories hquiet hmemory fun _ => hok
  | parents job todo =>
    cases todo with
    | nil => exact h.goto hquiet hok
    | cons => exact Content.goto ⟨h.durable, h.memory, h.work, h.recovery, h.alone⟩ hquiet hok
  | begin job =>
    obtain ⟨hheld, htied⟩ := hok
    rw [placeCall]
    split
    · exact h.raise hquiet
    next journal' hbegin =>
      obtain ⟨-, rfl⟩ := Journal.of_begin hbegin
      refine h.save hquiet hmemory ?_ (fun other hne => Dict.get?_set_of_ne hne) ⟨hheld, htied, _, _, rfl, Dict.get?_set_self, rfl⟩
      exact (h.memory journal hmemory).set ⟨hheld.seen, hheld.ino, fun _ => htied, (Stage.noConfusion ·)⟩
  | link job =>
    rw [placeCall]
    split
    · have hchange : Content cfg { s with files := s.files.link job.ino } := h.change
      have hlink := hchange.work name (.link job) hwork
      exact Content.goto ⟨hchange.durable, hchange.memory, hchange.work, hchange.recovery, hchange.alone⟩ hquiet hlink
    · exact h.goto hquiet hok
  | taken =>
    rw [placeCall]
    split
    · exact h.raise hquiet
    refine h.goto hquiet ?_
    split
    · exact hok
    · trivial
  | forget => exact h.dropName hquiet hmemory
  | sync => exact h.goto hquiet hok
  | after job same =>
    obtain ⟨hheld, htied, hrecorded⟩ := hok
    rw [placeCall, ← hheld.ino]
    split
    · exact h.raise hquiet
    split
    · exact h.goto hquiet ⟨hheld, htied, hrecorded⟩
    next hkey =>
      refine h.goto hquiet ?_
      split
      · exact ⟨hheld, htied, hrecorded⟩
      · exact ⟨seen_stats, fun _ => htied (not_not.mp hkey), hrecorded⟩
  | undo job =>
    rw [placeCall]
    split
    · exact h.raise hquiet
    next ino _ =>
      have hchange : Content cfg { s with files := s.files.unlink ino } := h.change
      exact Content.goto ⟨hchange.durable, hchange.memory, hchange.work, hchange.recovery, hchange.alone⟩ hquiet trivial
  | part =>
    refine h.goto hquiet ?_
    split
    · exact hok
    · exact hok
  | unstage job =>
    rw [placeCall]
    split
    · exact h.goto hquiet hok
    split
    · exact h.goto hquiet hok
    next ino _ =>
      have hchange : Content cfg { s with files := s.files.unlink ino } := h.change
      have hunstage := hchange.work name (.unstage job) hwork
      exact Content.goto ⟨hchange.durable, hchange.memory, hchange.work, hchange.recovery, hchange.alone⟩ hquiet hunstage
  | afterwards job =>
    obtain ⟨hheld, htied, hrecorded⟩ := hok
    rw [placeCall, ← hheld.ino]
    split
    · exact h.raise hquiet
    next hkey => exact h.goto hquiet ⟨seen_stats, fun _ => htied (not_not.mp hkey), hrecorded⟩
  | place job after =>
    obtain ⟨hseen, hbacked, journal'', entry, hmemory', hentry, hsha⟩ := hok
    cases hmemory.symm.trans hmemory'
    rw [placeCall]
    split
    · exact h.raise hquiet
    next journal' hplace =>
      refine h.save hquiet hmemory ((h.memory journal hmemory).place hplace hseen ?_) ?_ trivial
      · intro entry' hentry'
        cases hentry.symm.trans hentry'
        exact hsha ▸ hbacked
      · obtain ⟨_, -, -, rfl⟩ := Journal.of_place hplace
        exact fun other hne => Dict.get?_set_of_ne hne
  | _ => exact h.goto hquiet hok

/-- A system call of a check, of a removal or of a record of directories. -/
theorem Content.checkCall : Content cfg (checkCall cfg s journal name outcome work) := by
  have hquiet := h.busy hwork
  have hok := h.work name work hwork
  cases work with
  | look =>
    rw [checkCall]
    split
    · exact h.raise hquiet
    split
    · exact h.raise hquiet
    split
    · exact h.goto hquiet trivial
    split
    · exact h.raise hquiet
    split
    · exact h.goto hquiet trivial
    · exact h.goto hquiet trivial
  | missing | dropped => exact h.dropName hquiet hmemory
  | reopen =>
    rw [checkCall]
    split
    · exact h.raise hquiet
    split
    · exact h.goto hquiet ⟨seen_stats, begun_nil⟩
    · exact h.goto hquiet trivial
  | read size pin before read =>
    obtain ⟨hseen, hbegun⟩ := hok
    rw [checkCall]
    split
    next read' hnext => exact h.goto hquiet ⟨hseen, hbegun.more hnext⟩
    next hnext => exact h.goto hquiet ⟨hseen, hbegun.whole hnext⟩
    · exact h.goto hquiet trivial
  | reread pin before digest =>
    obtain ⟨hseen, hbacked⟩ := hok
    rw [checkCall]
    split
    next hmatch => exact h.goto hquiet ⟨hseen, hmatch.1 ▸ hbacked⟩
    · exact h.goto hquiet trivial
  | settle pin after =>
    obtain ⟨hseen, hbacked⟩ := hok
    rw [checkCall]
    split
    · exact h.raise hquiet
    next journal' hrehash =>
      obtain ⟨entry, hentry, hino, hset, hframe⟩ := Journal.of_rehash hrehash
      refine h.save hquiet hmemory ?_ hframe trivial
      intro other entry' hother
      by_cases hsame : other = name
      · subst hsame
        cases hset.symm.trans hother
        exact { seen := hseen, ino := hino, tied := (Stage.noConfusion ·), backed := fun _ => hbacked }
      · exact h.memory journal hmemory other entry' ((hframe other hsame).symm.trans hother)
  | remove =>
    rw [checkCall]
    split
    · exact h.raise hquiet
    split
    · exact h.goto hquiet trivial
    split
    · exact h.raise hquiet
    · exact h.goto hquiet trivial
  | unlink check =>
    rw [checkCall]
    split
    · exact h.raise hquiet
    next ino _ =>
      have hchange : Content cfg { s with files := s.files.unlink ino } := h.change
      exact Content.goto ⟨hchange.durable, hchange.memory, hchange.work, hchange.recovery, hchange.alone⟩ hquiet trivial
  | synced => exact h.goto hquiet trivial
  | directories => exact h.recordDirectories hquiet hmemory fun _ => trivial
  | _ => exact h.goto hquiet hok

theorem Content.call (hcall : call cfg s journal name outcome work = some t) : Content cfg t := by
  have hquiet := h.busy hwork
  unfold Placement.call at hcall
  split at hcall
  · cases hcall
  split at hcall
  · cases hcall
    split
    · exact h.placeCall hmemory hwork
    · exact h.checkCall hmemory hwork
  split at hcall
  · cases hcall
    exact h.goto hquiet trivial
  · cases hcall
    exact h.goto hquiet trivial
  · cases hcall
    exact h.raise hquiet
  · cases hcall
    exact h.raise hquiet
  · cases hcall

end

omit [DecidableEq Digest] in
theorem Content.recoverCall (h : Content cfg s) (hmemory : s.memory = some journal) (hrecovery : s.recovery = some recovery)
    (hcall : recoverCall s journal outcome recovery = some t) : Content cfg t := by
  have hidle : ∀ name, s.work.get? name = none := h.alone (hrecovery ▸ Option.some_ne_none recovery)
  have hquit : Content cfg { s with recovery := none } :=
    ⟨h.durable, h.memory, h.work, nofun, fun hno => absurd rfl hno⟩
  have hgo : ∀ recovery', RecoveryOk cfg s.files s.memory recovery' → Content cfg { s with recovery := some recovery' } :=
    fun recovery' hok => ⟨h.durable, h.memory, h.work, fun _ heq => Option.some.inj heq ▸ hok, fun _ => hidle⟩
  have hsave : ∀ journal' rest, JournalOk cfg s.files journal' →
      Content cfg { s.saved journal' outcome with recovery := if outcome = .ok then some (.look rest) else none } := by
    intro journal' rest hjournal'
    have hsaved : Content cfg (({ s with recovery := none } : State Name Digest).saved journal' outcome) :=
      hquit.saved hjournal' (fun name work hwork => absurd (hidle name) (hwork ▸ Option.some_ne_none work)) nofun
    refine ⟨hsaved.durable, hsaved.memory, hsaved.work, ?_, fun _ => hidle⟩
    intro recovery' hrecovery'
    split at hrecovery'
    · cases hrecovery'
      trivial
    · cases hrecovery'
  cases recovery with
  | look todo =>
    cases todo with
    | nil =>
      cases hcall
      exact hquit
    | cons name rest =>
      simp only [recoverCall] at hcall
      split at hcall
      · cases hcall
      · cases hcall
        exact hquit
      split at hcall
      · cases hcall
        exact hquit
      next entry hentry =>
        have hok := h.memory journal hmemory name entry hentry
        split at hcall
        · cases hcall
          exact hgo _ trivial
        next ino _ =>
          split at hcall
          · cases hcall
            exact hgo _ trivial
          next hino =>
            split at hcall
            next hplacing =>
              cases hcall
              refine hgo _ ?_
              obtain rfl : ino = entry.stats.ino := (not_not.mp (not_or.mp hino).1).trans hok.ino.symm
              have htied := hok.tied hplacing
              split
              next hsame =>
                have hkey : (s.files.stats entry.stats.ino).contentKey = entry.stats.contentKey := by
                  rw [Stats.contentKey, Stats.contentKey, hsame.1, hsame.2, Files.stats_ino]
                refine ⟨seen_stats, fun journal' entry' hjournal' hentry' _ => ?_⟩
                cases hmemory.symm.trans hjournal'
                cases hentry.symm.trans hentry'
                exact htied hkey
              · refine ⟨hok.seen, fun journal' entry' hjournal' hentry' => ?_⟩
                cases hmemory.symm.trans hjournal'
                cases hentry.symm.trans hentry'
                exact htied.backed
            · cases hcall
              exact hgo _ trivial
  | drop name rest =>
    cases hcall
    exact hsave _ rest (h.memory journal hmemory).drop
  | place name stats rest =>
    rw [recoverCall] at hcall
    split at hcall
    · cases hcall
      exact hquit
    next journal' hplace =>
      cases hcall
      obtain ⟨hseen, hbacked⟩ := h.recovery _ hrecovery
      exact hsave _ rest ((h.memory journal hmemory).place hplace hseen fun entry => hbacked journal entry hmemory)

/-- Every event keeps the invariant, where no write restores what stands for another digest. -/
theorem Content.step (h : Content cfg s) {event : Event Name Digest} (hhonest : Honest cfg s event)
    (hstep : step cfg s event = some t) : Content cfg t := by
  cases moves_of_step hstep with
  | write => exact h.write hhonest
  | change => exact h.change
  | part => exact ⟨h.durable, h.memory, h.work, h.recovery, h.alone⟩
  | load hquiet hnone =>
    refine ⟨h.durable, ?_, fun name work hwork => absurd (hnone name) (hwork ▸ Option.some_ne_none work), ?_, fun _ => hnone⟩
    · rintro _ ⟨⟩
      exact h.durable
    · intro recovery hrecovery
      exact absurd (hquiet.symm.trans hrecovery) (Option.some_ne_none recovery).symm
  | recover hmemory hnone =>
    refine ⟨h.durable, h.memory, h.work, ?_, fun _ => hnone⟩
    rintro _ ⟨⟩
    trivial
  | settle hmemory hrecovery hcall => exact h.recoverCall hmemory hrecovery hcall
  | begins hready hwork =>
    simp only [State.ready, Bool.and_eq_true, Option.isNone_iff_eq_none] at hready
    refine h.goto hready.1.2 ?_
    cases hwork with
    | hash => exact ⟨⟨seen_stats, rfl⟩, begun_nil⟩
    | staged => exact ⟨⟨seen_stats, rfl⟩, fun _ => rfl⟩
    | raised | look | remove | directories => trivial
  | call hmemory hwork hcall => exact h.call hmemory hwork hcall
  | take =>
    refine ⟨h.durable, h.memory, fun other work hother => ?_, h.recovery, fun hrecovery other => ?_⟩
    · exact h.work other work (Dict.get?_erase_eq_some.mp hother).2
    · rw [Dict.get?_erase, h.alone hrecovery other, ite_self]
  | crash => exact ⟨h.durable, nofun, nofun, nofun, fun _ _ => rfl⟩

/-- In every run without such a write, recorded and held stats stand for digests. -/
theorem content_of_reachable {parts : Name → Option ℕ} (h : Reachable (step cfg) (Honest cfg) (init files parts) s) : Content cfg s := by
  refine h.invariant (Content cfg) ?_ fun _ _ _ _ hcontent hhonest hstep => hcontent.step hhonest hstep
  exact ⟨nofun, nofun, nofun, nofun, fun _ _ => rfl⟩

end Invariant

end SparkRing.Placement
