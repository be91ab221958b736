import SparkRing.CutProgram
import SparkRing.PlacementDisk
import SparkRing.RelativeTree

/-!
# Releasing a checkpoint directory

A checkpoint directory D has a state directory beside it, with the record of its owner, a
journal of the names that were placed in D, a lock and staging directories. A release checks
both, unlinks the journaled names, removes the recorded directories and D, and then the state
directory, the owner record last. Every change of a directory entry is an operation of its
own, and a file that is written takes three: an old temporary file goes, the new one is
created, and it replaces the file.
-/

namespace SparkRing.CheckpointRelease

open OrderedDict CutProgram RelativeTree Placement

variable {Part : Type} [DecidableEq Part]

/-- What D holds that is no directory. -/
structure Item where
  stats : Stats
  /-- It is a regular file. -/
  regular : Bool

/-- A journaled name. -/
structure Entry where
  /-- The name was placed, and not only about to be. -/
  placed : Bool
  /-- The inode that was placed. -/
  identity : ℕ
  /-- The stats that were recorded. -/
  stats : Stats
  /-- They are of that inode. -/
  measured : stats.ino = identity

/-- The journal of the names in D. -/
structure Journal (Part : Type) where
  /-- The names. -/
  files : Dict (List Part) Entry
  /-- The directories that were made for them. -/
  directories : List (List Part)

/-- A file that is written to the state directory and replaces another. -/
inductive StateFile where
  | journal
  | temporary (name : String)
  deriving DecidableEq

/-- What a staging directory is for. -/
inductive Purpose where
  | fetch
  | receive
  | derive
  deriving DecidableEq

/-- All purposes, in order. -/
def Purpose.all : List Purpose := [.fetch, .receive, .derive]

/-- The marker of a staging directory. -/
inductive Marker (Part : Type) where
  /-- There is none. -/
  | absent
  | record (purpose : Purpose) (path : List Part)
  /-- Another document. -/
  | other
  /-- No document. -/
  | unreadable
  deriving DecidableEq

/-- A staging directory. -/
structure Staging (Part : Type) where
  marker : Marker Part
  /-- What it holds beside the marker, in the order in which it is removed. -/
  entries : List (List Part)

/-- The owner record of D. -/
structure Owner (Part : Type) where
  path : List Part
  /-- The inode of D. -/
  directory : ℕ

/-- The file of the owner record. -/
inductive OwnerFile (Part : Type) where
  | record (owner : Owner Part)
  /-- Another document. -/
  | other
  /-- No document. -/
  | unreadable

/-- The state directory. -/
structure StateDir (Part : Type) where
  /-- It belongs to this account, which alone can write to it. -/
  own : Bool
  owner : Option (OwnerFile Part)
  /-- The lock, and whether it is a regular file. -/
  lock : Option Bool
  /-- The journal and temporary files, none where a file holds no journal. -/
  plain : Dict StateFile (Option (Journal Part))
  staging : Purpose → Option (Staging Part)
  /-- Any other entries. -/
  unknown : List String

/-- What D's path holds. -/
inductive Target (Part : Type) [DecidableEq Part] where
  /-- Nothing. -/
  | absent
  | directory (ino : ℕ) (tree : Tree Part Item)
  /-- Anything else. -/
  | other

/-- D and its state directory. -/
structure World (Part : Type) [DecidableEq Part] where
  /-- What D's path holds. -/
  target : Target Part
  state : Option (StateDir Part)

/-- A running container. -/
structure Container (Part : Type) where
  name : String
  /-- The paths that it mounts. -/
  sources : List (List Part)

/-- What a release finds on its host. -/
structure Host (Part : Type) where
  containers : List (Container Part)
  localFilesystem : Bool
  /-- No other account can change a directory above D. -/
  privateAncestors : Bool
  /-- Another operation holds the lock. -/
  busy : Bool
  /-- The temporary file of this process. -/
  writer : String
  /-- The order of names. -/
  before : List Part → List Part → Bool

/-- Why a release fails. -/
inductive Refusal (Part : Type) where
  | unreadable
  | notCheckpoint
  | mounted (users : List String)
  | remote
  | sharedAncestor
  | notPrivate
  | irregularLock
  | busy
  | replaced
  | damagedJournal
  | unsafeName
  | blocked (name : List Part)
  | unexpected (names : List (List Part))
  | unknown
  | notRecorded (name : List Part)
  | notPlaced (name : List Part)
  | notEmpty
  | changed

abbrev Release (Part : Type) [DecidableEq Part] (α : Type) := Program (World Part) (Refusal Part) α

/-- The running containers that mount D or a path below it. -/
def runningContainers (path : List Part) (containers : List (Container Part)) : List String :=
  (containers.filter fun container => container.sources.any path.isPrefixOf).map Container.name

/-- The owner record that describes D. -/
def World.owner (path : List Part) (world : World Part) : Except (Refusal Part) (Option (Owner Part)) :=
  match world.state with
  | none => .ok none
  | some state =>
    match state.owner with
    | none => .ok none
    | some .unreadable => .error .unreadable
    | some .other => .ok none
    | some (.record owner) => .ok (if owner.path = path then some owner else none)

/-- The state directory. -/
def openState : Release Part (StateDir Part) := do
  let world ← look
  match world.state with
  | none => raise .changed
  | some state => pure state

/-- D, where its path holds the recorded directory. -/
def openTarget (owner : Owner Part) : Release Part (Tree Part Item) := do
  let world ← look
  match world.target with
  | .directory ino tree => if ino = owner.directory then pure tree else raise .replaced
  | _ => raise .replaced

/-- What a name of D holds, none where it or a directory above it is absent. -/
def lstatAt (tree : Tree Part Item) (name : List Part) : Except (Refusal Part) (Option (Node Item)) :=
  match tree.descend [] name with
  | .opened => .ok (tree.get? name)
  | .absent => .ok none
  | .blocked => .error (.blocked name)

/-- An operation on the state directory. -/
def onState (f : StateDir Part → StateDir Part) : Release Part Unit := change fun world => { world with state := world.state.map f }

/-- An operation on D. -/
def onTarget (target : Target Part) : Release Part Unit := change fun world => { world with target := target }

section Journal

variable (host : Host Part)

/-- The lock is created if it is absent, and taken. -/
def lock : Release Part Unit := do
  let state ← openState
  onlyIf (state.lock = none) (onState fun state => { state with lock := some true })
  require (state.lock ≠ some false) .irregularLock
  require (host.busy = false) .busy

def journalSave (journal : Journal Part) : Release Part Unit := do
  onState fun state => { state with plain := state.plain.erase (.temporary host.writer) }
  onState fun state => { state with plain := state.plain.set (.temporary host.writer) none }
  onState fun state => { state with plain := (state.plain.erase (.temporary host.writer)).set .journal (some journal) }

/-- The journal, empty where the file is absent. -/
def journalLoad : Release Part (Journal Part) := do
  let state ← openState
  match state.plain.get? .journal with
  | none => pure ⟨Dict.empty, []⟩
  | some none => raise .damagedJournal
  | some (some journal) => do
    require ([] ∉ journal.files.keys ∧ [] ∉ journal.directories) .unsafeName
    pure journal

/-- A name is forgotten. -/
def journalDrop (journal : Journal Part) (name : List Part) : Release Part (Journal Part) :=
  if journal.files.get? name = none then pure journal
  else do
    journalSave host { journal with files := journal.files.erase name }
    pure { journal with files := journal.files.erase name }

/-- A name was placed. -/
def journalPlace (journal : Journal Part) (name : List Part) (entry : Entry) (measured : Stats) : Release Part (Journal Part) :=
  if h : measured.ino = entry.identity then do
    let files := journal.files.set name ⟨true, entry.identity, measured, h⟩
    journalSave host { journal with files := files }
    pure { journal with files := files }
  else raise (.notRecorded name)

/-- One name of the journal is settled after an interruption. -/
def recoverName (tree : Tree Part Item) (journal : Journal Part) (name : List Part) : Release Part (Journal Part) :=
  match journal.files.get? name with
  | none => pure journal
  | some entry => do
    let current ← ofExcept (lstatAt tree name)
    match current with
    | none => journalDrop host journal name
    | some .directory => pure journal
    | some (.file item) =>
      if item.stats.ino ≠ entry.identity ∨ item.regular = false then pure journal
      else if entry.placed then pure journal
      else if item.stats.size = entry.stats.size ∧ item.stats.mtime = entry.stats.mtime then
        journalPlace host journal name entry item.stats
      else journalPlace host journal name entry entry.stats

/-- The names of the journal in their order. -/
def Journal.sorted (journal : Journal Part) : List (List Part) := journal.files.keys.mergeSort host.before

/-- The journal is settled after an interruption. -/
def journalRecover (tree : Tree Part Item) (journal : Journal Part) : Release Part (Journal Part) :=
  (journal.sorted host).foldlM (recoverName host tree) journal

/-- The directories that hold names. -/
def wanted (names : List (List Part)) : List (List Part) := names.flatMap ancestors

end Journal

section Checks

variable (host : Host Part) (path : List Part)

/-- A file of D is a required name that the journal records with its inode. -/
def Journal.holds (journal : Journal Part) (name : List Part) (item : Item) : Bool :=
  item.regular && (journal.files.get? name).any fun entry => decide (entry.identity = item.stats.ino)

/-- The entries of D that were not placed for a journaled name. -/
def unexpectedNames (tree : Tree Part Item) (journal : Journal Part) : List (List Part) :=
  ((tree.files.filter fun file => journal.holds file.1 file.2 = false).map Prod.fst) ++
    tree.directories.filter fun name => decide (name ∉ wanted journal.files.keys)

/-- A staging directory is marked for its purpose, or empty. -/
def Staging.accepted (purpose : Purpose) (staging : Staging Part) : Bool :=
  decide (staging.marker = .record purpose path ∨ staging.marker = .absent ∧ staging.entries = [])

/-- The state directory holds nothing else. -/
def checkState : Release Part Unit := do
  let state ← openState
  require (state.own = true) .notPrivate
  require (∀ purpose ∈ Purpose.all, ∀ staging ∈ state.staging purpose, staging.accepted path purpose = true) .unknown
  require (state.unknown = []) .unknown
  require (state.lock ≠ some false) .unknown

def claim (owner : Owner Part) : Release Part Unit := do
  require (host.localFilesystem = true) .remote
  require (host.privateAncestors = true) .sharedAncestor
  let state ← openState
  require (state.own = true) .notPrivate
  lock host
  let _ ← openTarget owner
  pure ()

end Checks

section Remove

variable (host : Host Part) (path : List Part) (owner : Owner Part)

/-- A journaled name is unlinked and forgotten. -/
def unlinkPlaced (journal : Journal Part) (name : List Part) : Release Part (Journal Part × Bool) :=
  match journal.files.get? name with
  | none => raise (.notRecorded name)
  | some entry => do
    let tree ← openTarget owner
    match tree.descend [] name, tree.get? name with
    | .opened, some (.file item) =>
      require (item.stats.ino = entry.identity) (.notPlaced name)
      onTarget (.directory owner.directory (tree.remove name))
      let journal ← journalDrop host journal name
      pure (journal, true)
    | .opened, none => do
      let journal ← journalDrop host journal name
      pure (journal, false)
    | .opened, some .directory => raise (.notPlaced name)
    | _, _ => raise (.blocked name)

/-- A staging directory is changed. -/
def StateDir.onStaging (purpose : Purpose) (f : Option (Staging Part)) (state : StateDir Part) : StateDir Part :=
  { state with staging := Function.update state.staging purpose f }

end Remove

section Release

variable (host : Host Part) (path : List Part)

/-- What comes before any name goes: D and its state directory are checked. -/
def prepare (owner : Owner Part) : Release Part (Journal Part × Tree Part Item) := do
  let users := runningContainers path host.containers
  require (users = []) (.mounted users)
  claim host owner
  let journal ← journalLoad
  let tree ← openTarget owner
  let journal ← journalRecover host tree journal
  let unexpected := (unexpectedNames tree journal).filter (· ∉ journal.directories)
  require (unexpected = []) (.unexpected unexpected)
  checkState path
  pure (journal, tree)

end Release

end SparkRing.CheckpointRelease
