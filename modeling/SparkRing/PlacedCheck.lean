import SparkRing.PlacementDisk

/-!
# Checking a placed name

A placed name is checked against its pin with a handful of system calls, each of which may
fail or show whatever the file system holds at that moment. The check answers, raises, or
removes the name. A check here is a function of what its calls give, so that every
combination of outcomes is covered.
-/

namespace SparkRing.PlacedCheck

open Placement

/-- Error numbers of the system; those that the code tells apart have names. -/
inductive Errno
  /-- The name does not exist. -/
  | ENOENT
  /-- The name is a symbolic link. -/
  | ELOOP
  /-- The name is not a directory. -/
  | ENOTDIR
  /-- Any other number, such as 24 for too many open files. -/
  | other (code : ℕ)
  deriving DecidableEq, Repr

/-- What a stat call shows. -/
structure Shown where
  stats : Stats
  /-- It is a regular file. -/
  regular : Bool
  deriving DecidableEq

/-- Calls that may fail. -/
inductive Call
  /-- Open a directory above the name. -/
  | openDirectory
  /-- Look at the name. -/
  | lstat
  | open
  /-- Look at the opened file. -/
  | fstat
  /-- Read the opened file. -/
  | read
  | unlink
  /-- Make the unlink durable. -/
  | fsync
  /-- Write the journal. -/
  | save
  deriving DecidableEq, Repr

/-- Reasons the code gives itself. -/
inductive Refusal
  /-- The journal has no placed entry for the name. -/
  | notPlaced
  /-- A directory above the name is a symbolic link or a file. -/
  | notDirectory
  /-- The name is no regular file. -/
  | notRegular
  /-- The file could not be opened for reading. -/
  | notOpened (error : Errno)
  /-- The opened file is not the recorded one. -/
  | otherFile
  /-- The opened file has another size than its pin. -/
  | wrongSize
  /-- The file ended early. -/
  | ended (read : ℕ)
  /-- The file holds more bytes than its pin. -/
  | holdsMore
  /-- The checkpoint directory was replaced. -/
  | replaced
  /-- The name shows a file that was not placed here. -/
  | foreign
  deriving DecidableEq, Repr

/-- What a check raises. -/
inductive Failure
  /-- A system call failed. -/
  | os (call : Call) (error : Errno)
  | value (reason : Refusal)
  deriving DecidableEq, Repr

/-- One way from the checkpoint directory to a name. -/
structure Lookup where
  /-- How opening each directory above the name ends. -/
  directories : List (Option Errno)
  /-- What looking at the name gives. -/
  shown : Except Errno Shown

/-- What every call of a check gives, if it is made. -/
structure Calls where
  first : Lookup
  /-- The look before the file is opened. -/
  source : Lookup
  /-- How opening the file ends. -/
  opens : Option Errno
  /-- The opened file before it is read. -/
  before : Except Errno Shown
  /-- What a read from an offset gives; only as many bytes as asked for are used. -/
  read : ℕ → Except Errno (List UInt8)
  /-- The opened file after it was read. -/
  after : Except Errno Shown
  /-- The check of the checkpoint directory before a removal. -/
  check : Option Failure
  /-- The look before a removal. -/
  again : Lookup
  /-- How unlinking ends. -/
  unlink : Option Errno
  /-- How making the unlink durable ends. -/
  sync : Option Errno
  /-- How writing the journal fails, and whether it was replaced by then. -/
  save : Option (Errno × Bool)

/-- Open the directories above a name one by one, without following links. -/
def openParents : List (Option Errno) → Except Failure Unit
  | [] => .ok ()
  | none :: rest => openParents rest
  | some error :: _ =>
    if error = .ELOOP ∨ error = .ENOTDIR then .error (.value .notDirectory) else .error (.os .openDirectory error)

/-- What a name shows, none where it or a directory above it is absent. -/
def lstatAt (look : Lookup) : Except Failure (Option Shown) :=
  match openParents look.directories with
  | .error (.os .openDirectory .ENOENT) => .ok none
  | .error failure => .error failure
  | .ok () =>
    match look.shown with
    | .error .ENOENT => .ok none
    | .error error => .error (.os .lstat error)
    | .ok shown => .ok (some shown)

/-- Open the recorded file of a size. -/
def openSource (calls : Calls) (inode size : ℕ) : Except Failure Shown :=
  match openParents calls.source.directories with
  | .error failure => .error failure
  | .ok () =>
    match calls.source.shown with
    | .error error => .error (.os .lstat error)
    | .ok info =>
      if info.regular = false then .error (.value .notRegular)
      else
        match calls.opens with
        | some error => .error (.value (.notOpened error))
        | none =>
          match calls.before with
          | .error error => .error (.os .fstat error)
          | .ok opened =>
            if opened.regular = false then .error (.value .notRegular)
            else if opened.stats.ino ≠ inode then .error (.value .otherFile)
            else if opened.stats.size ≠ size then .error (.value .wrongSize)
            else .ok opened

/-- Read on until as many bytes as the size are read. -/
def readBlocks (read : ℕ → Except Errno (List UInt8)) (size : ℕ) : ℕ → List UInt8 → Except Failure (List UInt8)
  | 0, data => .ok data
  | turns + 1, data =>
    if data.length < size then
      match read data.length with
      | .error error => .error (.os .read error)
      | .ok answer =>
        let block := answer.take (min BLOCK (size - data.length))
        if block = [] then .error (.value (.ended data.length)) else readBlocks read size turns (data ++ block)
    else .ok data

/-- The bytes of a file of exactly a size. -/
def readWhole (read : ℕ → Except Errno (List UInt8)) (size : ℕ) : Except Failure (List UInt8) :=
  match readBlocks read size size [] with
  | .error failure => .error failure
  | .ok data =>
    match read size with
    | .error error => .error (.os .read error)
    | .ok answer => if answer.take 1 = [] then .ok data else .error (.value .holdsMore)

/-- What a check answers. -/
inductive Answer
  /-- The stats are the recorded ones. -/
  | verified
  /-- The bytes were hashed again. -/
  | rehashed
  /-- The name was removed. -/
  | removed
  /-- The name is absent. -/
  | missing
  deriving DecidableEq, Repr

variable {Name Digest : Type*} [DecidableEq Name] [DecidableEq Digest]

/-- How a check ends. -/
structure Run (Name Digest : Type*) where
  /-- Its answer, or what it raises. -/
  answer : Except Failure Answer
  /-- It unlinked the name. -/
  unlinked : Bool
  /-- The journal of the process. -/
  memory : Journal Name Digest
  /-- The journal on the disk. -/
  durable : Journal Name Digest

/-- Raise with everything as it was. -/
def Run.raise (journal : Journal Name Digest) (failure : Failure) : Run Name Digest :=
  ⟨.error failure, false, journal, journal⟩

/-- Write a changed journal, then answer. -/
def Run.save (calls : Calls) (unlinked : Bool) (journal changed : Journal Name Digest) (answer : Answer) : Run Name Digest :=
  match calls.save with
  | none => ⟨.ok answer, unlinked, changed, changed⟩
  | some (error, replaced) => ⟨.error (.os .save error), unlinked, changed, if replaced then changed else journal⟩

/-- Unlink a recorded name that shows its inode, and forget it. -/
def unlinkPlaced (calls : Calls) (journal : Journal Name Digest) (name : Name) (entry : Entry Digest) : Run Name Digest :=
  match calls.check with
  | some failure => .raise journal failure
  | none =>
    match openParents calls.again.directories with
    | .error failure => .raise journal failure
    | .ok () =>
      match calls.again.shown with
      | .error .ENOENT => .save calls false journal (journal.drop name) .removed
      | .error error => .raise journal (.os .lstat error)
      | .ok current =>
        if current.stats.ino ≠ entry.identity then .raise journal (.value .foreign)
        else
          match calls.unlink with
          | some error => .raise journal (.os .unlink error)
          | none =>
            match calls.sync with
            | some error => ⟨.error (.os .fsync error), true, journal, journal⟩
            | none => .save calls true journal (journal.drop name) .removed

/-- Check a placed name against the size and the digest of its pin. -/
def checkPlaced (digest : List UInt8 → Digest) (calls : Calls) (journal : Journal Name Digest) (name : Name) (size : ℕ)
    (pin : Digest) : Run Name Digest :=
  match journal.files.get? name with
  | none => .raise journal (.value .notPlaced)
  | some entry =>
    if entry.state ≠ .placed then .raise journal (.value .notPlaced)
    else
      match lstatAt calls.first with
      | .error failure => .raise journal failure
      | .ok none => .save calls false journal (journal.drop name) .missing
      | .ok (some current) =>
        if current.stats.ino ≠ entry.identity ∨ current.regular = false then .raise journal (.value .foreign)
        else if current.stats = entry.stats ∧ entry.sha256 = pin then ⟨.ok .verified, false, journal, journal⟩
        else
          match openSource calls entry.identity size with
          | .error (.os call error) => .raise journal (.os call error)
          -- every refusal ends in a removal, also that of a file that could not be opened
          | .error (.value _) => unlinkPlaced calls journal name entry
          | .ok before =>
            match readWhole calls.read size with
            | .error (.os call error) => .raise journal (.os call error)
            | .error (.value _) => unlinkPlaced calls journal name entry
            | .ok data =>
              match calls.after with
              | .error error => .raise journal (.os .fstat error)
              | .ok after =>
                if digest data = pin ∧ after.stats = before.stats then
                  .save calls false journal
                    { journal with files := journal.files.set name { entry with sha256 := pin, stats := after.stats } } .rehashed
                else unlinkPlaced calls journal name entry

/-- The calls before the file is read all work, and show the recorded regular file opened. -/
structure Opened (calls : Calls) (entry : Entry Digest) (opened : Shown) : Prop where
  /-- The directories above the name are opened. -/
  directories : openParents calls.source.directories = .ok ()
  named : ∃ info, calls.source.shown = .ok info ∧ info.regular = true
  /-- The file is opened. -/
  opens : calls.opens = none
  /-- This is the opened file. -/
  before : calls.before = .ok opened
  regular : opened.regular = true
  /-- It is the recorded one. -/
  inode : opened.stats.ino = entry.identity

/-- The calls show that the file is not the pinned one, or that it changed while it was read. -/
def Differs (digest : List UInt8 → Digest) (calls : Calls) (entry : Entry Digest) (size : ℕ) (pin : Digest) : Prop :=
  ∃ opened, Opened calls entry opened ∧
    (opened.stats.size ≠ size ∨ (∃ count < size, readWhole calls.read size = .error (.value (.ended count))) ∨
      readWhole calls.read size = .error (.value .holdsMore) ∨
        ∃ data after, readWhole calls.read size = .ok data ∧ calls.after = .ok after ∧
          (digest data ≠ pin ∨ after.stats ≠ opened.stats))

/-- Calls that look at the file. -/
def Call.looks : Call → Bool
  | .openDirectory | .lstat | .open | .fstat | .read => true
  | .unlink | .fsync | .save => false

/-- Nothing has changed. -/
def Run.Untouched (run : Run Name Digest) (journal : Journal Name Digest) : Prop :=
  run.unlinked = false ∧ run.memory = journal ∧ run.durable = journal

end SparkRing.PlacedCheck
