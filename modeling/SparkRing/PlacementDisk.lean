import Mathlib.Data.Finset.Basic
import SparkRing.OrderedDict

/-!
# Files and the placement journal

A checkpoint directory holds names of inodes, and a journal records each name with its
inode, its digest and its stats. Every change of an inode moves its change time, so stats
that are equal in all values belong to one content.
-/

namespace SparkRing.Placement

open OrderedDict Function

variable {Name Digest : Type*} [DecidableEq Name] {files : Files}

/-- How much of a file one read returns at most. -/
def BLOCK : ℕ := 16 <<< 20

/-- The five stats of a file; device and inode number are one number here. -/
structure Stats where
  /-- The device and the inode. -/
  ino : ℕ
  size : ℕ
  /-- The modification time. -/
  mtime : ℕ
  /-- The change time. -/
  ctime : ℕ
  deriving DecidableEq

/-- The stats that a link does not change. -/
def Stats.contentKey (stats : Stats) : ℕ × ℕ × ℕ := (stats.ino, stats.size, stats.mtime)

/-- A file. -/
structure Inode where
  /-- Its bytes. -/
  content : List UInt8
  /-- Its modification time, which writers may set. -/
  mtime : ℕ
  /-- Its change time, which every change moves. -/
  ctime : ℕ
  /-- How many names it has. -/
  nlink : ℕ
  /-- Who owns it. -/
  uid : ℕ
  /-- Group or others may write to it. -/
  shared : Bool
  /-- It is a regular file. -/
  regular : Bool
  deriving DecidableEq

/-- The files by number. -/
abbrev Files := ℕ → Inode

/-- The stats of a file now. -/
def Files.stats (files : Files) (ino : ℕ) : Stats := ⟨ino, (files ino).content.length, (files ino).mtime, (files ino).ctime⟩

/-- A writer leaves this content and modification time. -/
def Files.write (files : Files) (ino : ℕ) (content : List UInt8) (mtime : ℕ) : Files :=
  Function.update files ino { files ino with content := content, mtime := mtime, ctime := (files ino).ctime + 1 }

/-- A change of the links, the owner or the mode. -/
def Files.change (files : Files) (ino nlink uid : ℕ) (shared : Bool) : Files :=
  Function.update files ino { files ino with nlink := nlink, uid := uid, shared := shared, ctime := (files ino).ctime + 1 }

/-- One more name. -/
def Files.link (files : Files) (ino : ℕ) : Files := files.change ino ((files ino).nlink + 1) (files ino).uid (files ino).shared

/-- One name less. -/
def Files.unlink (files : Files) (ino : ℕ) : Files := files.change ino ((files ino).nlink - 1) (files ino).uid (files ino).shared

/-- What a read of a file that is hashed from its beginning gives. -/
inductive Read
  | more (read : List UInt8)
  /-- All of the size was read, and the file holds no more. -/
  | whole
  /-- The file is shorter or longer than its size. -/
  | broken
  deriving DecidableEq

/-- The next read of the loop that hashes a file of a size. -/
def Inode.next (inode : Inode) (size : ℕ) (read : List UInt8) : Read :=
  if read.length < size then
    let block := (inode.content.drop read.length).take (min BLOCK (size - read.length))
    if block = [] then .broken else .more (read ++ block)
  else if (inode.content.drop size).take 1 = [] then .whole
  else .broken

/-- How a placed name arrived. -/
inductive Origin
  /-- Hard-linked from a local source. -/
  | link
  /-- Copied from a local source. -/
  | copy
  /-- Received over the fabric. -/
  | fabric
  | rsync
  /-- Downloaded. -/
  | hub
  /-- Written by a recipe. -/
  | derive
  deriving DecidableEq

/-- How far a name is. -/
inductive Stage
  /-- The name may not exist yet. -/
  | placing
  /-- The linked file was confirmed. -/
  | placed
  deriving DecidableEq

/-- What the journal records of a name. -/
structure Entry (Digest : Type*) where
  /-- How far the name is. -/
  state : Stage
  /-- The inode it names. -/
  identity : ℕ
  /-- The digest of its content. -/
  sha256 : Digest
  stats : Stats
  /-- How it arrived. -/
  origin : Origin
  deriving DecidableEq

/-- A journal. -/
structure Journal (Name Digest : Type*) where
  files : Dict Name (Entry Digest)
  /-- The directories that were made for nested names. -/
  directories : Finset Name

/-- A journal of nothing. -/
def Journal.empty : Journal Name Digest := ⟨Dict.empty, ∅⟩

/-- Record the directories that hold a name. -/
def Journal.addDirectories (journal : Journal Name Digest) (wanted : List Name) : Journal Name Digest :=
  { journal with directories := journal.directories ∪ wanted.toFinset }

/-- Record a name before it is created, none where it is recorded for another file. -/
def Journal.begin (journal : Journal Name Digest) (name : Name) (ino : ℕ) (sha256 : Digest) (measured : Stats) (origin : Origin) :
    Option (Journal Name Digest) :=
  if (journal.files.get? name).any fun entry => entry.identity ≠ ino then none
  else some { journal with files := journal.files.set name ⟨.placing, ino, sha256, measured, origin⟩ }

/-- Record a name as placed, none where it is not recorded for this file. -/
def Journal.place (journal : Journal Name Digest) (name : Name) (measured : Stats) : Option (Journal Name Digest) :=
  match journal.files.get? name with
  | none => none
  | some entry =>
    if measured.ino ≠ entry.identity then none
    else some { journal with files := journal.files.set name { entry with state := .placed, stats := measured } }

/-- Forget a name. -/
def Journal.drop (journal : Journal Name Digest) (name : Name) : Journal Name Digest :=
  { journal with files := journal.files.erase name }

variable {journal journal' : Journal Name Digest} {name other : Name} {ino : ℕ} {sha256 : Digest} {measured : Stats} {origin : Origin}
  {entry : Entry Digest} {wanted : List Name}

theorem Journal.of_begin (h : journal.begin name ino sha256 measured origin = some journal') :
    (∀ entry, journal.files.get? name = some entry → entry.identity = ino) ∧
      journal' = { journal with files := journal.files.set name ⟨.placing, ino, sha256, measured, origin⟩ } := by
  unfold Journal.begin at h
  split at h
  · cases h
  next hsame =>
    cases h
    refine ⟨fun entry hentry => ?_, rfl⟩
    by_contra hne
    exact hsame (by simp [hentry, hne])

theorem Journal.of_place (h : journal.place name measured = some journal') :
    ∃ entry, journal.files.get? name = some entry ∧ measured.ino = entry.identity ∧
      journal' = { journal with files := journal.files.set name { entry with state := .placed, stats := measured } } := by
  unfold Journal.place at h
  split at h
  · cases h
  next entry hentry =>
    split at h
    · cases h
    next hsame =>
      cases h
      exact ⟨entry, hentry, not_not.mp hsame, rfl⟩

@[simp] theorem Files.stats_ino : (files.stats ino).ino = ino := rfl

/-- Later files: each one is as it was, or its change time moved. -/
def Files.Later (files files' : Files) : Prop := ∀ ino, files' ino = files ino ∨ (files ino).ctime < (files' ino).ctime

theorem Files.later_update {inode : Inode} (h : (files ino).ctime < inode.ctime) : files.Later (update files ino inode) := by
  intro other
  by_cases hsame : other = ino
  · subst hsame
    exact .inr (by simpa using h)
  · exact .inl (update_of_ne hsame _ _)

theorem Files.later_write {content : List UInt8} {mtime : ℕ} : files.Later (files.write ino content mtime) :=
  later_update (Nat.lt_succ_self _)

theorem Files.later_change {nlink uid : ℕ} {shared : Bool} : files.Later (files.change ino nlink uid shared) :=
  later_update (Nat.lt_succ_self _)

/-- A change of the links, the owner or the mode keeps every content and modification time. -/
theorem Files.change_same (files : Files) (ino nlink uid other : ℕ) (shared : Bool) :
    (files.change ino nlink uid shared other).content = (files other).content ∧
      (files.change ino nlink uid shared other).mtime = (files other).mtime := by
  unfold Files.change
  by_cases hsame : other = ino
  · subst hsame
    simp
  · simp [update_of_ne hsame]

end SparkRing.Placement
