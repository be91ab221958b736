import SparkRing.PlacementSteps

/-!
# Recorded stats and contents

While a name is being placed, its recorded size and modification time stand for the
recorded digest. Once it is placed, all five recorded stats do. Writers keep the second by
moving the change time, and the first where no write restores a recorded size and
modification time with another content.
-/

namespace SparkRing.Placement

variable {Name Digest : Type*} {cfg : Config Name Digest} {files files' : Files} {stats : Stats} {sha256 digest : Digest}
  {read read' content : List UInt8} {ino size mtime : ℕ}

/-- Stats that a file has or had. -/
def Seen (files : Files) (stats : Stats) : Prop := stats.ctime ≤ (files stats.ino).ctime

/-- A file with all these stats has this digest. -/
def Backed (cfg : Config Name Digest) (files : Files) (stats : Stats) (sha256 : Digest) : Prop :=
  files.stats stats.ino = stats → cfg.digest (files stats.ino).content = sha256

/-- A file with this size and modification time has this digest. -/
def Tied (cfg : Config Name Digest) (files : Files) (stats : Stats) (sha256 : Digest) : Prop :=
  (files.stats stats.ino).contentKey = stats.contentKey → cfg.digest (files stats.ino).content = sha256

/-- What was read of a file that has not changed since is how it begins. -/
def Begun (files : Files) (stats : Stats) (read : List UInt8) : Prop :=
  (files stats.ino).ctime = stats.ctime → read <+: (files stats.ino).content

theorem seen_stats : Seen files (files.stats ino) := le_rfl

theorem begun_nil : Begun files stats [] := fun _ => List.nil_prefix

theorem Tied.backed (h : Tied cfg files stats sha256) : Backed cfg files stats sha256 := fun heq => h (congrArg Stats.contentKey heq)

/-- Where a file has the digest now, its stats stand for it. -/
theorem tied_of_digest (h : cfg.digest (files stats.ino).content = sha256) : Tied cfg files stats sha256 := fun _ => h

theorem Seen.later (h : Seen files stats) (hlater : files.Later files') : Seen files' stats := by
  rcases hlater stats.ino with heq | hlt
  · rw [Seen, heq]
    exact h
  · exact h.trans hlt.le

theorem Backed.later (h : Backed cfg files stats sha256) (hseen : Seen files stats) (hlater : files.Later files') :
    Backed cfg files' stats sha256 := by
  intro hstats
  rcases hlater stats.ino with heq | hlt
  · rw [Files.stats, heq] at hstats
    rw [heq]
    exact h hstats
  · have hctime : (files' stats.ino).ctime = stats.ctime := congrArg Stats.ctime hstats
    exact absurd (hseen.trans_lt hlt) (by omega)

theorem Begun.later (h : Begun files stats read) (hseen : Seen files stats) (hlater : files.Later files') : Begun files' stats read := by
  intro hctime
  rcases hlater stats.ino with heq | hlt
  · rw [heq] at hctime ⊢
    exact h hctime
  · exact absurd (hseen.trans_lt hlt) (by omega)

theorem Begun.more (h : Begun files stats read) (hnext : (files stats.ino).next size read = .more read') : Begun files stats read' := by
  intro hctime
  obtain ⟨rest, hrest⟩ := h hctime
  unfold Inode.next at hnext
  split at hnext
  · dsimp only at hnext
    split at hnext
    · cases hnext
    cases hnext
    rw [← hrest, List.drop_left, List.prefix_append_right_inj]
    exact List.take_prefix _ _
  split at hnext
  · cases hnext
  · cases hnext

/-- A file that was read to its end without a change has the digest of what was read. -/
theorem Begun.whole (h : Begun files stats read) (hnext : (files stats.ino).next size read = .whole) :
    Backed cfg files stats (cfg.digest read) := by
  intro hstats
  have hread := h (congrArg Stats.ctime hstats)
  unfold Inode.next at hnext
  split at hnext
  · dsimp only at hnext
    split at hnext
    · cases hnext
    · cases hnext
  next hlong =>
    split at hnext
    next hend =>
      have hlength := congrArg List.length hend
      rw [List.length_take, List.length_drop, List.length_nil] at hlength
      rw [hread.eq_of_length_le (by omega)]
    · cases hnext

variable {name : Name} {job : Job Name Digest} {work : Work Name Digest} {s : State Name Digest}
  {journal : Journal Name Digest} {entry : Entry Digest} {recovery : Recovery Name}

/-- The job whose file is confirmed before the link, until its name is placed. -/
def Work.pending : Work Name Digest → Option (Job Name Digest)
  | .record job | .parents job _ | .begin job | .link job | .taken job | .sync job | .shown job | .after job _ | .undo job | .part job
  | .unstage job | .afterwards job => some job
  | _ => none

/-- The stats of an entry stand for its digest, as far as its name is placed. -/
structure EntryOk (cfg : Config Name Digest) (files : Files) (entry : Entry Digest) : Prop where
  /-- The file had these stats. -/
  seen : Seen files entry.stats
  /-- They are stats of the recorded file. -/
  ino : entry.stats.ino = entry.identity
  /-- The size and the modification time, while the name is being placed. -/
  tied : entry.state = .placing → Tied cfg files entry.stats entry.sha256
  /-- All five, once it is placed. -/
  backed : entry.state = .placed → Backed cfg files entry.stats entry.sha256

/-- The stats of a job are those of its file. -/
structure Held (files : Files) (job : Job Name Digest) : Prop where
  /-- The file had these stats. -/
  seen : Seen files job.before
  /-- They are stats of the file of the job. -/
  ino : job.before.ino = job.ino

section Invariant

variable [LinearOrder Name]

/-- The entries of a journal stand for their digests. -/
def JournalOk (cfg : Config Name Digest) (files : Files) (journal : Journal Name Digest) : Prop :=
  ∀ name entry, journal.files.get? name = some entry → EntryOk cfg files entry

/-- The process recorded the name of a job with its digest. -/
def Recorded (memory : Option (Journal Name Digest)) (name : Name) (job : Job Name Digest) : Prop :=
  ∃ journal entry, memory = some journal ∧ journal.files.get? name = some entry ∧ entry.sha256 = job.sha256

/-- What the stats that work holds stand for. -/
def WorkOk (cfg : Config Name Digest) (files : Files) (memory : Option (Journal Name Digest)) (name : Name) : Work Name Digest → Prop
  | .hash job read => Held files job ∧ Begun files job.before read
  | .inspect job | .staged job _ | .final job _ _ | .confirm job => Held files job ∧ Backed cfg files job.before job.sha256
  | .again job current read =>
    Held files job ∧ current.contentKey = job.before.contentKey ∧ Seen files current ∧ Begun files current read
  | .unchanged job current =>
    Held files job ∧ current.contentKey = job.before.contentKey ∧ Seen files current ∧ Backed cfg files current job.sha256
  | .record job | .parents job _ | .begin job => Held files job ∧ Tied cfg files job.before job.sha256
  | .link job | .taken job | .sync job | .shown job | .after job _ | .undo job | .part job | .unstage job | .afterwards job =>
    Held files job ∧ Tied cfg files job.before job.sha256 ∧ Recorded memory name job
  | .place job after => Seen files after ∧ Backed cfg files after job.sha256 ∧ Recorded memory name job
  | .read _ _ before read => Seen files before ∧ Begun files before read
  | .reread _ before digest => Seen files before ∧ Backed cfg files before digest
  | .settle pin after => Seen files after ∧ Backed cfg files after pin
  | _ => True

/-- What the stats that a recovery holds stand for. -/
def RecoveryOk (cfg : Config Name Digest) (files : Files) (memory : Option (Journal Name Digest)) : Recovery Name → Prop
  | .place name stats _ => Seen files stats ∧
    ∀ journal entry, memory = some journal → journal.files.get? name = some entry → Backed cfg files stats entry.sha256
  | _ => True

/-- Recorded and held stats stand for digests. -/
structure Content (cfg : Config Name Digest) (s : State Name Digest) : Prop where
  /-- In the journal on the disk. -/
  durable : JournalOk cfg s.files s.durable
  /-- In the journal of the process. -/
  memory : ∀ journal, s.memory = some journal → JournalOk cfg s.files journal
  /-- In the work in flight. -/
  work : ∀ name work, s.work.get? name = some work → WorkOk cfg s.files s.memory name work
  /-- In the recovery in flight. -/
  recovery : ∀ recovery, s.recovery = some recovery → RecoveryOk cfg s.files s.memory recovery
  /-- Nothing else is in flight during a recovery. -/
  alone : s.recovery ≠ none → ∀ name, s.work.get? name = none

/-- A size and a modification time that stand for a digest. -/
def Pending (s : State Name Digest) (stats : Stats) (sha256 : Digest) : Prop :=
  (∃ journal, (journal = s.durable ∨ s.memory = some journal) ∧ ∃ name entry, journal.files.get? name = some entry ∧
    entry.state = .placing ∧ entry.stats = stats ∧ entry.sha256 = sha256) ∨
  ∃ name work job, s.work.get? name = some work ∧ work.pending = some job ∧ job.before = stats ∧ job.sha256 = sha256

/-- No write restores the size and the modification time of a file that is being placed with a
content of another digest. -/
def Honest (cfg : Config Name Digest) (s : State Name Digest) : Event Name Digest → Prop
  | .write ino content mtime => ∀ stats sha256, Pending s stats sha256 → stats.ino = ino → content.length = stats.size →
    mtime = stats.mtime → cfg.digest content = sha256
  | _ => True

end Invariant

end SparkRing.Placement
