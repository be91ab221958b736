import Mathlib.Data.List.Sort
import SparkRing.PlacementDisk
import SparkRing.TransitionSystem

/-!
# Placement, one system call at a time

A file is hashed through its descriptor, recorded as placing, linked into the checkpoint
directory, confirmed and recorded as placed. Different names are worked on concurrently,
other programs write to the files between any two system calls, every call may fail, and
a crash leaves the files, the names and the durable journal.
-/

namespace SparkRing.Placement

open OrderedDict

/-- What the placement of names depends on. -/
structure Config (Name Digest : Type*) where
  /-- The digest of a content. -/
  digest : List UInt8 → Digest
  /-- The directories that hold a name, the outermost first. -/
  parents : Name → List Name
  /-- The account of the process. -/
  euid : ℕ

/-- A file that is being placed. -/
structure Job (Name Digest : Type*) where
  /-- The inode of the descriptor. -/
  ino : ℕ
  /-- The digest that was computed through the descriptor. -/
  sha256 : Digest
  /-- The stats before hashing. -/
  before : Stats
  /-- How it arrived. -/
  origin : Origin
  /-- Its name in the staging directory. -/
  part : Option Name
  deriving DecidableEq

/-- What a stat tells beside the five stats. -/
structure Mode where
  /-- It is a regular file. -/
  regular : Bool
  /-- How many names it has. -/
  nlink : ℕ
  /-- Who owns it. -/
  uid : ℕ
  /-- Group or others may write to it. -/
  shared : Bool
  deriving DecidableEq

/-- What a call returns. -/
inductive Answer
  /-- The file was placed with these stats. -/
  | placed (stats : Stats)
  /-- All five stats equal the journal. -/
  | verified
  /-- The file was hashed again and matched. -/
  | rehashed
  /-- The file differed and its name was unlinked. -/
  | removed
  /-- The name was absent. -/
  | missing
  /-- The name was unlinked, or was absent already. -/
  | unlinked (found : Bool)
  /-- Directories were recorded. -/
  | recorded
  /-- An exception. -/
  | raised
  deriving DecidableEq

/-- The next system call of the work on a name. -/
inductive Work (Name Digest : Type*)
  /-- The caller reads the file to hash it. -/
  | hash (job : Job Name Digest) (read : List UInt8)
  /-- The stat of a staged file's descriptor. -/
  | inspect (job : Job Name Digest)
  | staged (job : Job Name Digest) (mode : Mode)
  /-- The stat of the name it gets; the staging name may show the same file. -/
  | final (job : Job Name Digest) (mode : Mode) (same : Bool)
  /-- The stat of the descriptor before the link. -/
  | confirm (job : Job Name Digest)
  /-- The second read, after the change time moved. -/
  | again (job : Job Name Digest) (current : Stats) (read : List UInt8)
  /-- The stat after the second read. -/
  | unchanged (job : Job Name Digest) (current : Stats)
  | record (job : Job Name Digest)
  /-- They are made. -/
  | parents (job : Job Name Digest) (todo : List Name)
  /-- The name is recorded as placing. -/
  | begin (job : Job Name Digest)
  | link (job : Job Name Digest)
  /-- The stat of a name that exists already. -/
  | taken (job : Job Name Digest)
  /-- The name is forgotten after an error. -/
  | forget (job : Job Name Digest)
  /-- The directory is synced. -/
  | sync (job : Job Name Digest)
  /-- The stat of the new name. -/
  | shown (job : Job Name Digest)
  /-- The stat of the descriptor after the link; the name may show the same file. -/
  | after (job : Job Name Digest) (same : Bool)
  /-- The name of a file that changed is unlinked. -/
  | undo (job : Job Name Digest)
  /-- The stat of the staging name. -/
  | part (job : Job Name Digest)
  /-- The staging name is unlinked. -/
  | unstage (job : Job Name Digest)
  /-- The stat of the descriptor after that. -/
  | afterwards (job : Job Name Digest)
  | place (job : Job Name Digest) (after : Stats)
  /-- A check's stat of a placed name. -/
  | look (size : ℕ) (pin : Digest)
  /-- The absent name is forgotten. -/
  | missing
  /-- The file is opened. -/
  | reopen (size : ℕ) (pin : Digest)
  | read (size : ℕ) (pin : Digest) (before : Stats) (read : List UInt8)
  | reread (pin : Digest) (before : Stats) (digest : Digest)
  /-- Its stats are recorded. -/
  | settle (pin : Digest) (after : Stats)
  /-- The stat of a name to unlink, for a check or for its own sake. -/
  | remove (check : Bool)
  /-- The name is unlinked. -/
  | unlink (check : Bool)
  /-- The directory is synced. -/
  | synced (check : Bool)
  /-- The name is forgotten. -/
  | dropped (check found : Bool)
  | directories (wanted : List Name)
  /-- The call returned. -/
  | done (answer : Answer)
  deriving DecidableEq

/-- The next system call that settles a journal after an interruption. -/
inductive Recovery (Name : Type*)
  /-- The stat of the next name. -/
  | look (todo : List Name)
  /-- An absent name is forgotten. -/
  | drop (name : Name) (rest : List Name)
  /-- A linked name is recorded as placed, with these stats. -/
  | place (name : Name) (stats : Stats) (rest : List Name)
  deriving DecidableEq

/-- What a system call, or a save of the journal, comes to. -/
inductive Outcome
  /-- It succeeds. -/
  | ok
  /-- It fails and changes nothing. -/
  | failed
  /-- A save fails after the journal was replaced; an open fails before the file was opened. -/
  | late
  deriving DecidableEq

/-- The checkpoint directory and the process that works on it. -/
structure State (Name Digest : Type*) where
  files : Files
  /-- The names of the checkpoint directory. -/
  names : Name → Option ℕ
  /-- The directories that were made in it. -/
  made : Finset Name
  /-- The names of the staging directory. -/
  parts : Name → Option ℕ
  /-- The journal on the disk. -/
  durable : Journal Name Digest
  /-- The journal of the process, once it was loaded. -/
  memory : Option (Journal Name Digest)
  /-- The work in flight. -/
  work : Dict Name (Work Name Digest)
  /-- The recovery in flight. -/
  recovery : Option (Recovery Name)

/-- Something happens. -/
inductive Event (Name Digest : Type*)
  /-- A writer leaves a content and a modification time. -/
  | write (ino : ℕ) (content : List UInt8) (mtime : ℕ)
  /-- The links outside, the owner or the mode of a file change. -/
  | change (ino nlink uid : ℕ) (shared : Bool)
  /-- A staging name shows a file, or none. -/
  | part (part : Name) (ino : Option ℕ)
  /-- A process loads the journal. -/
  | load
  /-- It begins to settle it. -/
  | recover
  /-- The next system call of that. -/
  | settle (outcome : Outcome)
  /-- A source or a staged file is opened, to be hashed and placed under a name. -/
  | openFile (name : Name) (ino size : ℕ) (pin : Digest) (origin : Origin) (part : Option Name)
  /-- A part that was hashed while it was written is to be placed. -/
  | stage (name : Name) (ino : ℕ) (origin : Origin) (part : Name)
  | check (name : Name) (size : ℕ) (pin : Digest)
  | unlink (name : Name)
  /-- Directories are to be recorded. -/
  | directories (name : Name) (wanted : List Name)
  /-- The next system call for a name. -/
  | call (name : Name) (outcome : Outcome)
  /-- The answer for a name is taken. -/
  | take (name : Name)
  /-- The process ends. -/
  | crash

variable {Name Digest : Type*} [LinearOrder Name] [DecidableEq Digest]

def Files.mode (files : Files) (ino : ℕ) : Mode := ⟨(files ino).regular, (files ino).nlink, (files ino).uid, (files ino).shared⟩

namespace State

/-- The work on a name goes on. -/
def goto (s : State Name Digest) (name : Name) (work : Work Name Digest) : State Name Digest :=
  { s with work := s.work.set name work }

/-- The call for a name raises. -/
def raise (s : State Name Digest) (name : Name) : State Name Digest := s.goto name (.done .raised)

/-- A journal is saved. The process holds it either way, the disk unless the save failed before it replaced the file. -/
def saved (s : State Name Digest) (journal : Journal Name Digest) (outcome : Outcome) : State Name Digest :=
  { s with memory := some journal, durable := if outcome = .failed then s.durable else journal }

/-- A journal is saved and the work on a name goes on, unless the save raises. -/
def save (s : State Name Digest) (name : Name) (journal : Journal Name Digest) (outcome : Outcome) (work : Work Name Digest) :
    State Name Digest :=
  (s.saved journal outcome).goto name (if outcome = .ok then work else .done .raised)

/-- The name shows an inode. -/
def setName (s : State Name Digest) (name : Name) (ino : Option ℕ) (files : Files) : State Name Digest :=
  { s with names := Function.update s.names name ino, files := files }

end State

/-- Directories are recorded where one is not yet. -/
def recordDirectories (s : State Name Digest) (journal : Journal Name Digest) (name : Name) (wanted : List Name) (outcome : Outcome)
    (work : Work Name Digest) : State Name Digest :=
  if ∀ directory ∈ wanted, directory ∈ journal.directories then s.goto name work
  else s.save name (journal.addDirectories wanted) outcome work

/-- A name is forgotten where it is recorded. -/
def dropName (s : State Name Digest) (journal : Journal Name Digest) (name : Name) (outcome : Outcome) (answer : Answer) :
    State Name Digest :=
  if (journal.files.get? name).isSome then s.save name (journal.drop name) outcome (.done answer)
  else s.goto name (.done answer)

def removal (check found : Bool) : Answer := if check then .removed else .unlinked found

/-- The digest of a placed name is the pin, and its stats are recorded. -/
def Journal.rehash (journal : Journal Name Digest) (name : Name) (pin : Digest) (after : Stats) : Option (Journal Name Digest) :=
  match journal.files.get? name with
  | none => none
  | some entry => ({ journal with files := journal.files.set name { entry with sha256 := pin } } : Journal Name Digest).place name after

/-- A system call of the placement of a file succeeds. -/
def placeCall (cfg : Config Name Digest) (s : State Name Digest) (journal : Journal Name Digest) (name : Name) (outcome : Outcome) :
    Work Name Digest → State Name Digest
  | .hash job read =>
    match (s.files job.ino).next job.before.size read with
    | .more read => s.goto name (.hash job read)
    | .whole =>
      if cfg.digest read = job.sha256 then s.goto name (if job.part.isSome then .inspect job else .confirm job)
      else s.raise name
    | .broken => s.raise name
  | .inspect job => s.goto name (.staged job (s.files.mode job.ino))
  | .staged job mode =>
    match job.part.bind s.parts with
    | none => s.raise name
    | some ino => s.goto name (.final job mode (ino = job.ino))
  | .final job mode same =>
    let links := if s.names name = some job.ino then 2 else 1
    if same ∧ mode.regular ∧ mode.nlink = links ∧ mode.uid = cfg.euid ∧ mode.shared = false then s.goto name (.confirm job)
    else s.raise name
  | .confirm job =>
    let current := s.files.stats job.ino
    if (s.files job.ino).regular = false ∨ current.contentKey ≠ job.before.contentKey then s.raise name
    else if current = job.before then s.goto name (.record job)
    else s.goto name (.again job current [])
  | .again job current read =>
    match (s.files job.ino).next current.size read with
    | .more read => s.goto name (.again job current read)
    | .whole => if cfg.digest read = job.sha256 then s.goto name (.unchanged job current) else s.raise name
    | .broken => s.raise name
  | .unchanged job current => if s.files.stats job.ino = current then s.goto name (.record job) else s.raise name
  | .record job => recordDirectories s journal name (cfg.parents name) outcome (.parents job (cfg.parents name))
  | .parents job [] => s.goto name (.begin job)
  | .parents job (directory :: rest) => { s with made := insert directory s.made }.goto name (.parents job rest)
  | .begin job =>
    match journal.begin name job.ino job.sha256 job.before job.origin with
    | none => s.raise name
    | some journal => s.save name journal outcome (.link job)
  | .link job =>
    match s.names name with
    | none => (s.setName name (some job.ino) (s.files.link job.ino)).goto name (.sync job)
    | some _ => s.goto name (.taken job)
  | .taken job =>
    match s.names name with
    | none => s.raise name
    | some ino => s.goto name (if ino = job.ino then .sync job else .forget job)
  | .forget _ => dropName s journal name outcome .raised
  | .sync job => s.goto name (.shown job)
  | .shown job =>
    match s.names name with
    | none => s.raise name
    | some ino => s.goto name (.after job (ino = job.ino))
  | .after job same =>
    let after := s.files.stats job.ino
    if same = false then s.raise name
    else if after.contentKey ≠ job.before.contentKey then s.goto name (.undo job)
    else s.goto name (if job.part.isSome then .part job else .place job after)
  | .undo job =>
    match s.names name with
    | none => s.raise name
    | some ino => (s.setName name none (s.files.unlink ino)).goto name (.forget job)
  | .part job => s.goto name (if job.part.bind s.parts = some job.ino then .unstage job else .afterwards job)
  | .unstage job =>
    match job.part with
    | none => s.goto name (.afterwards job)
    | some part =>
      match s.parts part with
      | none => s.goto name (.afterwards job)
      | some ino => { s with parts := Function.update s.parts part none, files := s.files.unlink ino }.goto name (.afterwards job)
  | .afterwards job =>
    let after := s.files.stats job.ino
    if after.contentKey ≠ job.before.contentKey then s.raise name else s.goto name (.place job after)
  | .place _ after =>
    match journal.place name after with
    | none => s.raise name
    | some journal => s.save name journal outcome (.done (.placed after))
  | work => s.goto name work

/-- A system call of a check, of a removal or of a record of directories succeeds. -/
def checkCall (cfg : Config Name Digest) (s : State Name Digest) (journal : Journal Name Digest) (name : Name) (outcome : Outcome) :
    Work Name Digest → State Name Digest
  | .look size pin =>
    match journal.files.get? name with
    | none => s.raise name
    | some entry =>
      if entry.state ≠ .placed then s.raise name
      else
        match s.names name with
        | none => s.goto name .missing
        | some ino =>
          if ino ≠ entry.identity ∨ (s.files ino).regular = false then s.raise name
          else if s.files.stats ino = entry.stats ∧ entry.sha256 = pin then s.goto name (.done .verified)
          else s.goto name (.reopen size pin)
  | .missing => dropName s journal name outcome .missing
  | .reopen size pin =>
    match s.names name with
    | none => s.raise name
    | some ino =>
      if (s.files ino).regular ∧ (journal.files.get? name).map Entry.identity = some ino ∧ (s.files ino).content.length = size then
        s.goto name (.read size pin (s.files.stats ino) [])
      else s.goto name (.remove true)
  | .read size pin before read =>
    match (s.files before.ino).next size read with
    | .more read => s.goto name (.read size pin before read)
    | .whole => s.goto name (.reread pin before (cfg.digest read))
    | .broken => s.goto name (.remove true)
  | .reread pin before digest =>
    if digest = pin ∧ s.files.stats before.ino = before then s.goto name (.settle pin before) else s.goto name (.remove true)
  | .settle pin after =>
    match journal.rehash name pin after with
    | none => s.raise name
    | some journal => s.save name journal outcome (.done .rehashed)
  | .remove check =>
    match journal.files.get? name with
    | none => s.raise name
    | some entry =>
      match s.names name with
      | none => s.goto name (.dropped check false)
      | some ino => if ino ≠ entry.identity then s.raise name else s.goto name (.unlink check)
  | .unlink check =>
    match s.names name with
    | none => s.raise name
    | some ino => (s.setName name none (s.files.unlink ino)).goto name (.synced check)
  | .synced check => s.goto name (.dropped check true)
  | .dropped check found => dropName s journal name outcome (removal check found)
  | .directories wanted => recordDirectories s journal name wanted outcome (.done .recorded)
  | work => s.goto name work

/-- Work that places a file. -/
def Work.places : Work Name Digest → Bool
  | .look .. | .missing | .reopen .. | .read .. | .reread .. | .settle .. | .remove .. | .unlink .. | .synced .. | .dropped ..
  | .directories .. | .done .. => false
  | _ => true

/-- Work that saves the journal next. -/
def Work.saves : Work Name Digest → Bool
  | .record .. | .begin .. | .forget .. | .place .. | .missing | .settle .. | .dropped .. | .directories .. => true
  | _ => false

/-- A system call of the work on a name. -/
def call (cfg : Config Name Digest) (s : State Name Digest) (journal : Journal Name Digest) (name : Name) (outcome : Outcome)
    (work : Work Name Digest) : Option (State Name Digest) :=
  match work with
  | .done _ => none
  | _ =>
    if outcome = .ok ∨ work.saves then
      some (if work.places then placeCall cfg s journal name outcome work else checkCall cfg s journal name outcome work)
    else
      match work, outcome with
      -- a link that fails otherwise than because the name exists
      | .link job, .failed => some (s.goto name (.forget job))
      -- a file that cannot be opened is removed
      | .reopen .., .failed => some (s.goto name (.remove true))
      | .reopen .., .late => some (s.raise name)
      | _, .failed => some (s.raise name)
      | _, _ => none

/-- The next system call of a recovery. -/
def recoverCall (s : State Name Digest) (journal : Journal Name Digest) (outcome : Outcome) : Recovery Name → Option (State Name Digest)
  | .look [] => some { s with recovery := none }
  | .look (name :: rest) =>
    match outcome with
    | .late => none
    | .failed => some { s with recovery := none }
    | .ok =>
      match journal.files.get? name with
      | none => some { s with recovery := none }
      | some entry =>
        match s.names name with
        | none => some { s with recovery := some (.drop name rest) }
        | some ino =>
          if ino ≠ entry.identity ∨ (s.files ino).regular = false then some { s with recovery := some (.look rest) }
          else if entry.state = .placing then
            let current := s.files.stats ino
            let same := current.size = entry.stats.size ∧ current.mtime = entry.stats.mtime
            some { s with recovery := some (.place name (if same then current else entry.stats) rest) }
          else some { s with recovery := some (.look rest) }
  | .drop name rest => some { s.saved (journal.drop name) outcome with recovery := if outcome = .ok then some (.look rest) else none }
  | .place name stats rest =>
    match journal.place name stats with
    | none => some { s with recovery := none }
    | some journal => some { s.saved journal outcome with recovery := if outcome = .ok then some (.look rest) else none }

def State.ready (s : State Name Digest) (name : Name) : Bool :=
  s.memory.isSome && s.recovery.isNone && (s.work.get? name).isNone

def step (cfg : Config Name Digest) (s : State Name Digest) : Event Name Digest → Option (State Name Digest)
  | .write ino content mtime => some { s with files := s.files.write ino content mtime }
  | .change ino nlink uid shared => some { s with files := s.files.change ino nlink uid shared }
  | .part part ino => some { s with parts := Function.update s.parts part ino }
  | .load => if s.recovery = none ∧ s.work.items = [] then some { s with memory := some s.durable } else none
  | .recover =>
    match s.memory with
    | none => none
    | some journal =>
      if s.recovery = none ∧ s.work.items = [] then
        some { s with recovery := some (.look (journal.files.keys.insertionSort (· ≤ ·))) }
      else none
  | .settle outcome =>
    match s.memory, s.recovery with
    | some journal, some recovery => recoverCall s journal outcome recovery
    | _, _ => none
  | .openFile name ino size pin origin part =>
    if s.ready name ∧ (origin = .link ↔ part = none) then
      if (s.files ino).regular ∧ (s.files ino).content.length = size then
        some (s.goto name (.hash ⟨ino, pin, s.files.stats ino, origin, part⟩ []))
      else some (s.raise name)
    else none
  | .stage name ino origin part =>
    if s.ready name ∧ origin ≠ .link then
      some (s.goto name (.staged ⟨ino, cfg.digest (s.files ino).content, s.files.stats ino, origin, some part⟩ (s.files.mode ino)))
    else none
  | .check name size pin => if s.ready name then some (s.goto name (.look size pin)) else none
  | .unlink name => if s.ready name then some (s.goto name (.remove false)) else none
  | .directories name wanted => if s.ready name then some (s.goto name (.directories wanted)) else none
  | .call name outcome =>
    match s.memory, s.work.get? name with
    | some journal, some work => call cfg s journal name outcome work
    | _, _ => none
  | .take name =>
    match s.work.get? name with
    | some (.done _) => some { s with work := s.work.erase name }
    | _ => none
  | .crash => some { s with memory := none, work := Dict.empty, recovery := none }

/-- Work that an event begins. -/
inductive Begins (cfg : Config Name Digest) (files : Files) : Work Name Digest → Prop
  | hash {ino pin origin part} : Begins cfg files (.hash ⟨ino, pin, files.stats ino, origin, part⟩ [])
  | staged {ino origin part} : Begins cfg files (.staged ⟨ino, cfg.digest (files ino).content, files.stats ino, origin, part⟩ (files.mode ino))
  | raised : Begins cfg files (.done .raised)
  | look {size pin} : Begins cfg files (.look size pin)
  | remove : Begins cfg files (.remove false)
  | directories {wanted} : Begins cfg files (.directories wanted)

/-- What an event does. -/
inductive Moves (cfg : Config Name Digest) (s : State Name Digest) : Event Name Digest → State Name Digest → Prop
  | write {ino content mtime} : Moves cfg s (.write ino content mtime) { s with files := s.files.write ino content mtime }
  | change {ino nlink uid shared} : Moves cfg s (.change ino nlink uid shared) { s with files := s.files.change ino nlink uid shared }
  | part {part ino} : Moves cfg s (.part part ino) { s with parts := Function.update s.parts part ino }
  | load (hquiet : s.recovery = none) (hnone : ∀ name, s.work.get? name = none) : Moves cfg s .load { s with memory := some s.durable }
  | recover {journal} (hmemory : s.memory = some journal) (hnone : ∀ name, s.work.get? name = none) :
    Moves cfg s .recover { s with recovery := some (.look (journal.files.keys.insertionSort (· ≤ ·))) }
  | settle {journal recovery outcome t} (hmemory : s.memory = some journal) (hrecovery : s.recovery = some recovery)
    (hcall : recoverCall s journal outcome recovery = some t) : Moves cfg s (.settle outcome) t
  | begins {event name work} (hready : s.ready name = true) (hwork : Begins cfg s.files work) : Moves cfg s event (s.goto name work)
  | call {journal work name outcome t} (hmemory : s.memory = some journal) (hwork : s.work.get? name = some work)
    (hcall : call cfg s journal name outcome work = some t) : Moves cfg s (.call name outcome) t
  | take {name result} (hdone : s.work.get? name = some (.done result)) : Moves cfg s (.take name) { s with work := s.work.erase name }
  | crash : Moves cfg s .crash { s with memory := none, work := Dict.empty, recovery := none }

theorem moves_of_step {cfg : Config Name Digest} {s t : State Name Digest} {event : Event Name Digest} (h : step cfg s event = some t) :
    Moves cfg s event t := by
  have hnone : s.work.items = [] → ∀ name, s.work.get? name = none := fun hitems name => by rw [Dict.get?, hitems, List.lookup_nil]
  cases event
  all_goals rw [step] at h
  case load =>
    split at h
    next hidle => cases h; exact .load hidle.1 (hnone hidle.2)
    · cases h
  case recover =>
    split at h
    · cases h
    next hmemory =>
      split at h
      next hidle => cases h; exact .recover hmemory (hnone hidle.2)
      · cases h
  case settle =>
    split at h
    next hmemory hrecovery => exact .settle hmemory hrecovery h
    · cases h
  case openFile =>
    split at h
    next hready =>
      split at h
      · cases h; exact .begins hready.1 .hash
      · cases h; exact .begins hready.1 .raised
    · cases h
  case stage =>
    split at h
    next hready => cases h; exact .begins hready.1 .staged
    · cases h
  case call =>
    split at h
    next hmemory hwork => exact .call hmemory hwork h
    · cases h
  case take =>
    split at h
    next hdone => cases h; exact .take hdone
    · cases h
  case check | unlink | directories =>
    split at h
    next hready => cases h; exact .begins hready (by constructor)
    · cases h
  all_goals cases h
  all_goals constructor

/-- A fresh checkpoint directory. -/
def init (files : Files) (parts : Name → Option ℕ) : State Name Digest :=
  ⟨files, fun _ => none, ∅, parts, Journal.empty, none, Dict.empty, none⟩

end SparkRing.Placement
