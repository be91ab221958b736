import Mathlib.Algebra.BigOperators.Group.Finset.Basic
import SparkRing.PlacementDisk

/-!
# A release and what it leaves of other files

A release unlinks every journaled name of a checkpoint directory, refreshes the receipts of
the inodes that stay, and then removes what is left in its staging directories. Unlinking a
name moves the change time of its inode and takes one of its links.
-/

namespace SparkRing.Release

open OrderedDict Placement

variable {Link Path Name Digest : Type*} [DecidableEq Link] [DecidableEq Name]

/-- What an inode holds. -/
structure File (Digest : Type*) where
  size : ℕ
  /-- The modification time. -/
  mtime : ℕ
  /-- The change time. -/
  ctime : ℕ
  /-- It is a regular file. -/
  regular : Bool
  /-- The digest of its content. -/
  digest : Digest

/-- Directory entries and the inodes they name. -/
structure Disk (Link Digest : Type*) where
  /-- The directory entries. -/
  links : Dict Link ℕ
  /-- The inodes. -/
  file : ℕ → File Digest

/-- How many links an inode has. -/
def Disk.nlink (disk : Disk Link Digest) (ino : ℕ) : ℕ := disk.links.values.count ino

/-- The five stats of an inode. -/
def Disk.stats (disk : Disk Link Digest) (ino : ℕ) : Stats := ⟨ino, (disk.file ino).size, (disk.file ino).mtime, (disk.file ino).ctime⟩

/-- A change of an inode's links. -/
def File.changed (file : File Digest) : File Digest := { file with ctime := file.ctime + 1 }

/-- A directory entry is removed. -/
def Disk.unlink (disk : Disk Link Digest) (link : Link) : Disk Link Digest :=
  match disk.links.get? link with
  | none => disk
  | some ino => ⟨disk.links.erase link, Function.update disk.file ino (disk.file ino).changed⟩

/-- A journaled name. -/
structure Placed (Link Digest : Type*) where
  /-- Its directory entry. -/
  link : Link
  /-- The inode that was placed. -/
  identity : ℕ
  /-- The digest that was verified. -/
  sha256 : Digest

/-- How a release changed an inode. -/
structure Change (Digest : Type*) where
  sha256 : Digest
  before : Stats
  /-- The stats right after. -/
  after : Option Stats

/-- What a release has done. -/
structure Work (Link Digest : Type*) where
  disk : Disk Link Digest
  /-- How inodes that stay were changed. -/
  changed : Dict ℕ (Change Digest) := Dict.empty
  /-- The names that were unlinked. -/
  unlinked : ℕ := 0
  /-- The bytes that stay through another link. -/
  kept : ℕ := 0
  /-- The bytes that were freed. -/
  freed : ℕ := 0

/-- A name of an inode that stays is gone; its stats are noted where it could be opened. -/
def Work.keep (opens : Link → Bool) (work : Work Link Digest) (entry : Placed Link Digest) (ino : ℕ) : Work Link Digest :=
  let disk := work.disk.unlink entry.link
  { work with
    disk := disk
    unlinked := work.unlinked + 1
    kept := work.kept + (work.disk.file ino).size
    changed :=
      if opens entry.link then work.changed.set ino ⟨entry.sha256, work.disk.stats ino, some (disk.stats ino)⟩ else work.changed }

/-- The last name of an inode is gone. -/
def Work.free (work : Work Link Digest) (entry : Placed Link Digest) (ino : ℕ) : Work Link Digest :=
  { work with disk := work.disk.unlink entry.link, unlinked := work.unlinked + 1, freed := work.freed + (work.disk.file ino).size }

/-- One journaled name is unlinked. -/
def Work.unlink (opens : Link → Bool) (work : Work Link Digest) (entry : Placed Link Digest) : Option (Work Link Digest) :=
  match work.disk.links.get? entry.link with
  | none => some work
  | some ino =>
    if ino ≠ entry.identity then none
    else some (if 1 < work.disk.nlink ino then work.keep opens entry ino else work.free entry ino)

/-- A receipt or a path record. -/
structure Receipt (Path Name Digest : Type*) where
  /-- The directory it is about. -/
  path : Path
  files : Dict Name Digest
  /-- The recorded stats, none where they are no five integers. -/
  fileStats : Dict Name (Option Stats)

/-- The directory entry that a name below a directory leads to. -/
abbrev Lookup (Path Name Link : Type*) := Path → Name → Option Link

/-- The inode that a name leads to. -/
def Disk.find (disk : Disk Link Digest) (lookup : Lookup Path Name Link) (path : Path) (name : Name) : Option ℕ :=
  (lookup path name).bind disk.links.get?

/-- The recorded stats are as an inode had them before it was changed. -/
def matchesBefore (contentVerified : Bool) (values before : Stats) : Bool :=
  if contentVerified then values.contentKey = before.contentKey else values = before

variable [DecidableEq Digest]

/-- The stats of a receipt entry after a refresh. -/
def refreshed (disk : Disk Link Digest) (lookup : Lookup Path Name Link) (changed : Dict ℕ (Change Digest)) (contentVerified : Bool)
    (receipt : Receipt Path Name Digest) (name : Name) (values : Stats) : Stats :=
  match changed.get? values.ino with
  | none => values
  | some change =>
    if matchesBefore contentVerified values change.before = false ∨ receipt.files.get? name ≠ some change.sha256 then values
    else
      match disk.find lookup receipt.path name with
      | none => values
      | some ino =>
        if (disk.file ino).regular = false then values
        else if (disk.stats ino).contentKey ≠ values.contentKey ∨ change.after.any (· ≠ disk.stats ino) then values
        else disk.stats ino

def Receipt.refresh (disk : Disk Link Digest) (lookup : Lookup Path Name Link) (changed : Dict ℕ (Change Digest))
    (contentVerified : Bool) (receipt : Receipt Path Name Digest) : Receipt Path Name Digest :=
  { receipt with
    fileStats := receipt.fileStats.adjust fun name values => values.map (refreshed disk lookup changed contentVerified receipt name) }

/-- What a release that completes leaves. -/
structure Released (Link Path Name Digest : Type*) where
  disk : Disk Link Digest
  receipts : List (Receipt Path Name Digest)
  /-- The names that were unlinked. -/
  unlinked : ℕ
  /-- The bytes that were freed. -/
  freed : ℕ
  /-- The bytes that stay through another link. -/
  kept : ℕ

/-- The journaled names go, the receipts are refreshed, and then what is left in the staging directories goes. -/
def release (lookup : Lookup Path Name Link) (opens : Link → Bool) (disk : Disk Link Digest) (journal : List (Placed Link Digest))
    (staged : List Link) (receipts : List (Receipt Path Name Digest)) : Option (Released Link Path Name Digest) :=
  (journal.foldlM (Work.unlink opens) { disk := disk }).map fun work =>
    { disk := staged.foldl Disk.unlink work.disk
      receipts := receipts.map (Receipt.refresh work.disk lookup work.changed false)
      unlinked := work.unlinked
      freed := work.freed
      kept := work.kept }

end SparkRing.Release
