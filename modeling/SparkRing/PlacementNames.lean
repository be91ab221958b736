import SparkRing.PlacementRecovery

/-!
# Names and the journal

Every name of the checkpoint directory is recorded with the inode it shows, before it
exists and for as long as it does, unless a link fails for a name that exists already.
-/

namespace SparkRing.Placement

open OrderedDict Function
open Option (some_ne_none)
open Placement (checkCall placeCall)

variable {Name Digest : Type*} [LinearOrder Name] {cfg : Config Name Digest} {files : Files} {name other : Name} {ino : ℕ}
  {job : Job Name Digest} {work : Work Name Digest} {s t : State Name Digest} {journal journal' : Journal Name Digest}
  {outcome : Outcome} {entry : Entry Digest} {recovery : Recovery Name}

/-- A journal records a name with an inode. -/
def RecordedFor (journal : Journal Name Digest) (name : Name) (ino : ℕ) : Prop :=
  ∃ entry, journal.files.get? name = some entry ∧ entry.identity = ino

/-- The journals on the disk and in the process record a name with an inode. -/
def RecordedBoth (s : State Name Digest) (name : Name) (ino : ℕ) : Prop :=
  RecordedFor s.durable name ino ∧ ∀ journal, s.memory = some journal → RecordedFor journal name ino

/-- The files of the entries are regular. -/
def Regular (files : Files) (journal : Journal Name Digest) : Prop :=
  ∀ name entry, journal.files.get? name = some entry → (files entry.identity).regular = true

/-- What work on a name knows of it. -/
def WorkNamed (s : State Name Digest) (name : Name) : Work Name Digest → Prop
  | .again job _ _ | .unchanged job _ | .record job | .parents job _ | .begin job => (s.files job.ino).regular = true
  | .link job | .taken job => RecordedBoth s name job.ino
  | .forget _ | .missing | .synced _ | .dropped .. => s.names name = none
  | _ => True

/-- An entry is placed, and its name shows its inode. -/
def Settled (s : State Name Digest) (name : Name) (entry : Entry Digest) : Prop :=
  entry.state = .placed ∧ s.names name = some entry.identity

/-- What a recovery knows of the names that it has settled, and of the one that it settles. -/
def RecoveryNamed (s : State Name Digest) (journal : Journal Name Digest) : Recovery Name → Prop
  | .look todo => ∀ name entry, journal.files.get? name = some entry → name ∉ todo → Settled s name entry
  | .drop name rest => s.names name = none ∧
    ∀ other entry, journal.files.get? other = some entry → other ≠ name → other ∉ rest → Settled s other entry
  | .place name _ rest => (∃ entry, journal.files.get? name = some entry ∧ s.names name = some entry.identity) ∧
    ∀ other entry, journal.files.get? other = some entry → other ≠ name → other ∉ rest → Settled s other entry

/-- Every name is recorded. -/
structure Named (s : State Name Digest) : Prop where
  /-- Both journals record every name with the inode that it shows. -/
  names : ∀ name ino, s.names name = some ino → RecordedBoth s name ino
  /-- Recorded files are regular, on the disk. -/
  durable : Regular s.files s.durable
  /-- Recorded files are regular, in the process. -/
  memory : ∀ journal, s.memory = some journal → Regular s.files journal
  work : ∀ name work, s.work.get? name = some work → WorkNamed s name work
  /-- A recovery in flight. -/
  recovery : ∀ recovery journal, s.recovery = some recovery → s.memory = some journal → RecoveryNamed s journal recovery
  /-- Nothing else is in flight during a recovery. -/
  alone : s.recovery ≠ none → ∀ name, s.work.get? name = none

/-- No link fails for a name that exists, otherwise than because it does. -/
def Kept (s : State Name Digest) : Event Name Digest → Prop
  | .call name .failed => ∀ job, s.work.get? name = some (.link job) → s.names name = none
  | _ => True

/-- What work knows is about the names, the journals and the files. -/
theorem WorkNamed.congr (h : WorkNamed s name work) (hfiles : t.files = s.files) (hnames : t.names = s.names)
    (hdurable : t.durable = s.durable) (hmemory : t.memory = s.memory) : WorkNamed t name work := by
  cases work with
  | again job | unchanged job | record job | parents job | begin job =>
    exact (congrArg (fun files : Files => (files job.ino).regular) hfiles).trans h
  | link | taken => exact ⟨hdurable ▸ h.1, hmemory ▸ h.2⟩
  | forget | missing | synced | dropped => exact (congrFun hnames name).trans h
  | _ => trivial

theorem Named.busy (h : Named s) (hwork : s.work.get? name = some work) : s.recovery = none := by
  by_contra hrecovery
  rw [h.alone hrecovery name] at hwork
  cases hwork

/-- The files change, and stay regular. -/
theorem Named.withFiles (h : Named s) (hregular : ∀ ino, (files ino).regular = (s.files ino).regular) :
    Named { s with files := files } := { h with
  durable name entry hentry := (hregular _).trans (h.durable name entry hentry)
  memory journal hjournal name entry hentry := (hregular _).trans (h.memory journal hjournal name entry hentry)
  work name work hwork := by
    have hold := h.work name work hwork
    cases work with
    | again | unchanged | record | parents | begin => exact (hregular _).trans hold
    | _ => exact hold
  recovery recovery journal hrecovery hmemory := by
    have hold := h.recovery recovery journal hrecovery hmemory
    cases recovery with
    | look | drop | place => exact hold }

theorem regular_write {content : List UInt8} {mtime other : ℕ} : (files.write ino content mtime other).regular = (files other).regular := by
  unfold Files.write
  by_cases hsame : other = ino
  · rw [hsame, update_self]
  · rw [update_of_ne hsame]

theorem regular_change {nlink uid other : ℕ} {shared : Bool} :
    (files.change ino nlink uid shared other).regular = (files other).regular := by
  unfold Files.change
  by_cases hsame : other = ino
  · rw [hsame, update_self]
  · rw [update_of_ne hsame]

section

variable (h : Named s) (hquiet : s.recovery = none)

include h hquiet

theorem Named.goto (hwork : WorkNamed s name work) : Named (s.goto name work) := { h with
  work other work' hother := by
    rcases Dict.get?_set_eq_some.mp hother with ⟨rfl, rfl⟩ | ⟨-, hbefore⟩
    · exact hwork.congr rfl rfl rfl rfl
    · exact (h.work other work' hbefore).congr rfl rfl rfl rfl
  recovery _ _ hno := absurd (hquiet.symm.trans hno) (some_ne_none _).symm
  alone hno := absurd hquiet hno }

theorem Named.raise : Named (s.raise name) := h.goto hquiet trivial

/-- A saved journal records what the one before records of the other names, and of this one as
far as it exists or the next work needs it. -/
theorem Named.save (hmemory : s.memory = some journal)
    (hregular : Regular s.files journal') (hframe : ∀ other, other ≠ name → journal'.files.get? other = journal.files.get? other)
    (hname : ∀ ino, s.names name = some ino → RecordedFor journal' name ino)
    (hwork : outcome = .ok → WorkNamed (s.saved journal' .ok) name work) : Named (s.save name journal' outcome work) := by
  have hother : ∀ other ino, other ≠ name → RecordedBoth s other ino → RecordedBoth (s.saved journal' outcome) other ino := by
    intro other ino hne ⟨hdurable, hmem⟩
    have hrecorded : RecordedFor journal' other ino := by
      obtain ⟨entry, hentry, hino⟩ := hmem journal hmemory
      exact ⟨entry, (hframe other hne).trans hentry, hino⟩
    refine ⟨?_, ?_⟩
    · dsimp only [State.saved]
      split
      · exact hdurable
      · exact hrecorded
    · rintro _ ⟨⟩
      exact hrecorded
  constructor
  case names =>
    intro other ino hino
    by_cases hne : other = name
    · subst hne
      have hrecorded := hname ino hino
      refine ⟨?_, ?_⟩
      · dsimp only [State.save, State.saved, State.goto]
        split
        · exact (h.names other ino hino).1
        · exact hrecorded
      · rintro _ ⟨⟩
        exact hrecorded
    · exact hother other ino hne (h.names other ino hino)
  case durable =>
    dsimp only [State.save, State.saved, State.goto]
    split
    · exact h.durable
    · exact hregular
  case memory =>
    rintro _ ⟨⟩
    exact hregular
  case work =>
    intro other work' hwork'
    rcases Dict.get?_set_eq_some.mp hwork' with ⟨rfl, rfl⟩ | ⟨hne, hbefore⟩
    · split
      next hok =>
        subst hok
        exact (hwork rfl).congr rfl rfl rfl rfl
      · trivial
    have hold := h.work other work' hbefore
    cases work' with
    | link | taken => exact hother other _ hne hold
    | _ => exact hold
  case recovery =>
    intro recovery journal'' hno
    exact absurd (hquiet.symm.trans hno) (some_ne_none _).symm
  case alone => exact fun hno => absurd hquiet hno

/-- A name appears that is recorded, or goes. -/
theorem Named.setName {shown : Option ℕ}
    (hregular : ∀ ino, (files ino).regular = (s.files ino).regular) (hshown : ∀ ino, shown = some ino → RecordedBoth s name ino)
    (hwork : WorkNamed (s.setName name shown files) name work) : Named ((s.setName name shown files).goto name work) := by
  have hfiles : Named { s with files := files } := h.withFiles hregular
  constructor
  case names =>
    intro other ino hino
    by_cases hne : other = name
    · subst hne
      change update s.names other shown other = some ino at hino
      rw [update_self] at hino
      exact hshown ino hino
    change update s.names name shown other = some ino at hino
    rw [update_of_ne hne] at hino
    exact h.names other ino hino
  case durable => exact hfiles.durable
  case memory => exact hfiles.memory
  case work =>
    intro other work' hwork'
    rcases Dict.get?_set_eq_some.mp hwork' with ⟨rfl, rfl⟩ | ⟨hne, hbefore⟩
    · exact hwork.congr rfl rfl rfl rfl
    have hold := hfiles.work other work' hbefore
    have hsame : update s.names name shown other = s.names other := update_of_ne hne _ _
    cases work' with
    | forget | missing | synced | dropped => exact hsame.trans hold
    | _ => exact hold
  case recovery =>
    intro recovery journal'' hno
    exact absurd (hquiet.symm.trans hno) (some_ne_none _).symm
  case alone => exact fun hno => absurd hquiet hno

theorem Named.dropName (hmemory : s.memory = some journal) (hgone : s.names name = none)
    {answer : Answer} : Named (dropName s journal name outcome answer) := by
  unfold Placement.dropName
  split
  · refine h.save hquiet hmemory ?_ (fun other hne => Dict.get?_erase_of_ne hne) ?_ fun _ => trivial
    · exact fun other entry hentry => h.memory journal hmemory other entry (Dict.get?_erase_eq_some.mp hentry).2
    · exact fun ino hino => absurd (hgone.symm.trans hino) (some_ne_none ino).symm
  · exact h.goto hquiet trivial

theorem Named.recordDirectories (hmemory : s.memory = some journal) {wanted : List Name}
    (hwork : ∀ t : State Name Digest, t.files = s.files → WorkNamed t name work) :
    Named (recordDirectories s journal name wanted outcome work) := by
  unfold Placement.recordDirectories
  split
  · exact h.goto hquiet (hwork s rfl)
  · exact h.save hquiet hmemory (h.memory journal hmemory) (fun _ _ => rfl) (fun ino hino => (h.names name ino hino).2 journal hmemory)
      fun _ => hwork _ rfl

end

variable [DecidableEq Digest]

section

variable (h : Named s) (hmemory : s.memory = some journal) (hwork : s.work.get? name = some work)

include h hmemory hwork

theorem Named.placeCall : Named (placeCall cfg s journal name outcome work) := by
  have hquiet := h.busy hwork
  have hok := h.work name work hwork
  have hrecorded := h.names name
  cases work with
  | hash | staged | final | shown | afterwards =>
    simp only [placeCall]
    repeat' split
    all_goals exact h.goto hquiet trivial
  | inspect | sync => exact h.goto hquiet trivial
  | part =>
    refine h.goto hquiet ?_
    split
    · trivial
    · trivial
  | confirm job =>
    rw [placeCall]
    split
    · exact h.raise hquiet
    next hregular =>
      have hfile : (s.files job.ino).regular = true := by
        rw [← Bool.not_eq_false]
        exact (not_or.mp hregular).1
      split
      · exact h.goto hquiet hfile
      · exact h.goto hquiet hfile
  | again =>
    rw [placeCall]
    split
    · exact h.goto hquiet hok
    · split
      · exact h.goto hquiet hok
      · exact h.raise hquiet
    · exact h.raise hquiet
  | unchanged =>
    rw [placeCall]
    split
    · exact h.goto hquiet hok
    · exact h.raise hquiet
  | record job =>
    refine h.recordDirectories hquiet hmemory fun t hfiles => ?_
    exact (congrArg (fun files : Files => (files job.ino).regular) hfiles).trans hok
  | parents job todo =>
    cases todo with
    | nil => exact h.goto hquiet hok
    | cons directory rest =>
      have hmade : Named { s with made := insert directory s.made } :=
        ⟨h.names, h.durable, h.memory, fun name work hwork => (h.work name work hwork).congr rfl rfl rfl rfl,
          fun _ _ hno => absurd (hquiet.symm.trans hno) (some_ne_none _).symm, h.alone⟩
      exact hmade.goto hquiet hok
  | begin job =>
    rw [placeCall]
    split
    · exact h.raise hquiet
    next journal' hbegin =>
      obtain ⟨hsame, rfl⟩ := Journal.of_begin hbegin
      refine h.save hquiet hmemory ?_ (fun other hne => Dict.get?_set_of_ne hne) ?_ ?_
      · intro other entry hentry
        rcases Dict.get?_set_eq_some.mp hentry with ⟨rfl, rfl⟩ | ⟨-, hbefore⟩
        · exact hok
        · exact h.memory journal hmemory other entry hbefore
      · intro ino hino
        obtain ⟨entry, hentry, hidentity⟩ := (hrecorded ino hino).2 journal hmemory
        exact ⟨_, Dict.get?_set_self, (hsame entry hentry).symm.trans hidentity⟩
      intro _
      refine ⟨⟨_, Dict.get?_set_self, rfl⟩, ?_⟩
      rintro _ ⟨⟩
      exact ⟨_, Dict.get?_set_self, rfl⟩
  | link =>
    rw [placeCall]
    split
    · refine h.setName hquiet (fun ino => regular_change) ?_ trivial
      rintro ino ⟨⟩
      exact hok
    · exact h.goto hquiet hok
  | taken job =>
    rw [placeCall]
    split
    · exact h.raise hquiet
    next ino hino =>
      refine h.goto hquiet ?_
      split
      · trivial
      next hne =>
        -- an existing name is recorded for the inode that it shows
        obtain ⟨entry, hentry, hidentity⟩ := (hrecorded ino hino).2 journal hmemory
        obtain ⟨entry', hentry', hidentity'⟩ := hok.2 journal hmemory
        cases hentry.symm.trans hentry'
        exact absurd (hidentity.symm.trans hidentity') hne
  | forget => exact h.dropName hquiet hmemory hok
  | after =>
    rw [placeCall]
    split
    · exact h.raise hquiet
    split
    · exact h.goto hquiet trivial
    refine h.goto hquiet ?_
    split
    · trivial
    · trivial
  | undo =>
    rw [placeCall]
    split
    · exact h.raise hquiet
    · refine h.setName hquiet (fun ino => regular_change) (fun _ he => by cases he) ?_
      exact update_self _ _ _
  | unstage job =>
    rw [placeCall]
    split
    · exact h.goto hquiet trivial
    split
    · exact h.goto hquiet trivial
    next part _ _ ino _ =>
      have hfiles : Named { s with files := s.files.unlink ino } := h.withFiles fun _ => regular_change
      have hparts : Named { s with files := s.files.unlink ino, parts := update s.parts part none } :=
        ⟨hfiles.names, hfiles.durable, hfiles.memory, fun name work hwork => (hfiles.work name work hwork).congr rfl rfl rfl rfl,
          fun _ _ hno => absurd (hquiet.symm.trans hno) (some_ne_none _).symm, hfiles.alone⟩
      exact hparts.goto hquiet trivial
  | place job after =>
    rw [placeCall]
    split
    · exact h.raise hquiet
    next journal' hplace =>
      obtain ⟨entry, hentry, -, rfl⟩ := Journal.of_place hplace
      refine h.save hquiet hmemory ?_ (fun other hne => Dict.get?_set_of_ne hne) ?_ fun _ => trivial
      · intro other entry' hentry'
        rcases Dict.get?_set_eq_some.mp hentry' with ⟨rfl, rfl⟩ | ⟨-, hbefore⟩
        · exact h.memory journal hmemory other entry hentry
        · exact h.memory journal hmemory other entry' hbefore
      intro ino hino
      obtain ⟨entry', hentry', hidentity⟩ := (hrecorded ino hino).2 journal hmemory
      cases hentry.symm.trans hentry'
      exact ⟨_, Dict.get?_set_self, hidentity⟩
  | _ => exact h.goto hquiet hok

/-- A system call of a check, of a removal or of a record of directories. -/
theorem Named.checkCall : Named (checkCall cfg s journal name outcome work) := by
  have hquiet := h.busy hwork
  have hok := h.work name work hwork
  have hrecorded := h.names name
  cases work with
  | look size pin =>
    rw [checkCall]
    split
    · exact h.raise hquiet
    split
    · exact h.raise hquiet
    split
    next hgone => exact h.goto hquiet hgone
    · split
      · exact h.raise hquiet
      split
      · exact h.goto hquiet trivial
      · exact h.goto hquiet trivial
  | missing => exact h.dropName hquiet hmemory hok
  | reopen | read | reread =>
    simp only [checkCall]
    repeat' split
    all_goals exact h.goto hquiet trivial
  | settle pin after =>
    rw [checkCall]
    split
    · exact h.raise hquiet
    next journal' hrehash =>
      obtain ⟨entry, hentry, -, hset, hframe⟩ := Journal.of_rehash hrehash
      refine h.save hquiet hmemory ?_ hframe ?_ fun _ => trivial
      · intro other entry' hentry'
        by_cases hsame : other = name
        · subst hsame
          cases hset.symm.trans hentry'
          exact h.memory journal hmemory other entry hentry
        · exact h.memory journal hmemory other entry' ((hframe other hsame).symm.trans hentry')
      intro ino hino
      obtain ⟨entry', hentry', hidentity⟩ := (hrecorded ino hino).2 journal hmemory
      cases hentry.symm.trans hentry'
      exact ⟨_, hset, hidentity⟩
  | remove check =>
    rw [checkCall]
    split
    · exact h.raise hquiet
    split
    next hgone => exact h.goto hquiet hgone
    · split
      · exact h.raise hquiet
      · exact h.goto hquiet trivial
  | unlink =>
    rw [checkCall]
    split
    · exact h.raise hquiet
    · refine h.setName hquiet (fun ino => regular_change) (fun _ he => by cases he) ?_
      exact update_self _ _ _
  | synced => exact h.goto hquiet hok
  | dropped => exact h.dropName hquiet hmemory hok
  | directories => exact h.recordDirectories hquiet hmemory fun _ _ => trivial
  | _ => exact h.goto hquiet hok

/-- A call for a name, that does not fail to link a name that exists. -/
theorem Named.call (hkept : Kept s (.call name outcome)) (hcall : call cfg s journal name outcome work = some t) : Named t := by
  have hquiet := h.busy hwork
  unfold Placement.call at hcall
  split at hcall
  · cases hcall
  split at hcall
  · cases hcall
    split
    · exact h.placeCall hmemory hwork
    · exact h.checkCall hmemory hwork
  split at hcall
  · cases hcall
    exact h.goto hquiet (hkept _ hwork)
  · cases hcall
    exact h.goto hquiet trivial
  · cases hcall
    exact h.raise hquiet
  · cases hcall
    exact h.raise hquiet
  · cases hcall

end

end SparkRing.Placement
