import Mathlib.Algebra.BigOperators.Group.Finset.Piecewise
import Mathlib.Algebra.Order.BigOperators.Group.Finset
import SparkRing.ReleasedLinks

/-!
# Receipts stay current where a released inode has one name

Every unlinked name moves the change time of its inode once. The last change that a release
noted of an inode spans exactly the one unlink of its last name, so a receipt that was
current stays so exactly where the release unlinks one name of its inode, could open it and
journaled its digest. Bytes are counted once for every name.
-/

namespace SparkRing.Release

open OrderedDict Placement
open List (map_append mem_cons_self)

variable {Link Path Name Digest : Type*} [DecidableEq Link] [DecidableEq Name]

section Disk

variable {disk : Disk Link Digest} {link other : Link} {links : List Link} {ino : ℕ}

theorem get?_unlink : (disk.unlink link).links.get? other = if other = link then none else disk.links.get? other := by
  unfold Disk.unlink
  cases hget : disk.links.get? link with
  | none =>
    split_ifs with hsame
    · rw [hsame, hget]
    · rfl
  | some => exact Dict.get?_erase

/-- The links of an inode, before and after. -/
theorem nlink_unlink (hget : disk.links.get? link = some ino) (i : ℕ) :
    disk.nlink i = (disk.unlink link).nlink i + if ino = i then 1 else 0 := by
  have hperm := (Dict.perm_erase hget).map Prod.snd
  unfold Disk.nlink Disk.unlink Dict.values
  rw [hget, hperm.count_eq, List.map_cons, List.count_cons]
  simp only [beq_iff_eq]

theorem file_unlink (hget : disk.links.get? link = some ino) (i : ℕ) :
    (disk.unlink link).file i = if ino = i then (disk.file i).changed else disk.file i := by
  unfold Disk.unlink
  rw [hget]
  by_cases hsame : ino = i
  · subst hsame
    rw [if_pos rfl]
    exact Function.update_self ..
  · rw [if_neg hsame]
    exact Function.update_of_ne (Ne.symm hsame) ..

/-- What a file has after a number of changes of its links. -/
def File.after (file : File Digest) (n : ℕ) : File Digest := { file with ctime := file.ctime + n }

theorem changed_after (file : File Digest) (n : ℕ) : (file.after n).changed = file.after (n + 1) := rfl

/-- How many of some directory entries name an inode. -/
def Disk.named (disk : Disk Link Digest) (links : List Link) (ino : ℕ) : ℕ := (links.map disk.links.get?).count (some ino)

theorem named_append (disk : Disk Link Digest) (links others : List Link) (ino : ℕ) :
    disk.named (links ++ others) ino = disk.named links ino + disk.named others ino := by
  rw [Disk.named, map_append, List.count_append]
  rfl

theorem named_singleton (hget : disk.links.get? link = some ino) (i : ℕ) : disk.named [link] i = if ino = i then 1 else 0 := by
  rw [Disk.named, List.map_singleton, hget, List.count_singleton]
  simp only [beq_iff_eq, Option.some.injEq]

/-- What is left when some directory entries are gone. -/
structure Gone (disk : Disk Link Digest) (links : List Link) (after : Disk Link Digest) : Prop where
  /-- The other entries stay. -/
  get? : ∀ link, after.links.get? link = if link ∈ links then none else disk.links.get? link
  /-- The links of an inode. -/
  nlink : ∀ ino, disk.nlink ino = after.nlink ino + disk.named links ino
  /-- The inodes. -/
  file : ∀ ino, after.file ino = (disk.file ino).after (disk.named links ino)

theorem Gone.nil (disk : Disk Link Digest) : Gone disk [] disk where
  get? := fun _ => rfl
  nlink := fun _ => rfl
  file := fun _ => rfl

theorem Gone.unlink {after : Disk Link Digest} (h : Gone disk links after) (hfresh : link ∉ links)
    (hget : disk.links.get? link = some ino) : Gone disk (links ++ [link]) (after.unlink link) := by
  have hafter : after.links.get? link = some ino := by rw [h.get?, if_neg hfresh, hget]
  refine ⟨fun other => ?_, fun i => ?_, fun i => ?_⟩
  · rw [get?_unlink, h.get?]
    by_cases hother : other = link
    · rw [if_pos hother, if_pos (List.mem_append_right _ (List.mem_singleton.mpr hother))]
    · simp only [List.mem_append, List.mem_singleton, hother, or_false, if_false]
  · rw [named_append, named_singleton hget, h.nlink, nlink_unlink hafter]
    omega
  rw [named_append, named_singleton hget, file_unlink hafter, h.file]
  split_ifs
  · exact changed_after _ _
  · rfl

theorem Gone.foldl {after : Disk Link Digest} {others : List Link} (h : Gone disk links after) (hnodup : (links ++ others).Nodup)
    (hothers : ∀ link ∈ others, ∃ ino, disk.links.get? link = some ino) : Gone disk (links ++ others) (others.foldl Disk.unlink after) := by
  induction others generalizing links after with
  | nil =>
    rw [List.append_nil]
    exact h
  | cons link others ih =>
    obtain ⟨ino, hget⟩ := hothers link mem_cons_self
    have hfresh : link ∉ links := fun hmem => (List.disjoint_of_nodup_append hnodup) hmem mem_cons_self
    rw [List.append_cons] at hnodup ⊢
    exact ih (h.unlink hfresh hget) hnodup fun one hone => hothers one (List.mem_cons_of_mem link hone)

end Disk

/-- What a release that completes starts from. -/
structure Input (Link Path Name Digest : Type*) [DecidableEq Link] [DecidableEq Name] where
  lookup : Lookup Path Name Link
  /-- The names whose inodes can be opened. -/
  opens : Link → Bool
  disk : Disk Link Digest
  /-- The journal in the order of its names. -/
  journal : List (Placed Link Digest)
  /-- What is left in the staging directories. -/
  staged : List Link
  receipts : List (Receipt Path Name Digest)
  /-- Every journaled name holds its recorded inode. -/
  placed : ∀ entry ∈ journal, disk.links.get? entry.link = some entry.identity
  /-- What is left is there. -/
  left : ∀ link ∈ staged, ∃ ino, disk.links.get? link = some ino
  /-- They are different directory entries. -/
  distinct : (journal.map Placed.link ++ staged).Nodup
  /-- Recorded stats were measured before. -/
  measured : ∀ receipt ∈ receipts, ∀ name values, receipt.fileStats.get? name = some (some values) →
    values.ctime ≤ (disk.file values.ino).ctime

namespace Input

variable (input : Input Link Path Name Digest)

/-- The journaled directory entries. -/
def journaled : List Link := input.journal.map Placed.link

/-- The inodes that are released. -/
def released : Finset ℕ := (input.journal.map Placed.identity).toFinset

/-- The journaled names of an inode. -/
def names (ino : ℕ) : ℕ := input.disk.named input.journaled ino

/-- The links of an inode that are left in staging directories. -/
def leftovers (ino : ℕ) : ℕ := input.disk.named input.staged ino

/-- The size of an inode. -/
def size (ino : ℕ) : ℕ := (input.disk.file ino).size

end Input

section Loop

variable {input : Input Link Path Name Digest} {done todo : List (Placed Link Digest)} {entry : Placed Link Digest}
  {work : Work Link Digest} {ino : ℕ} {change : Change Digest}

/-- The stats of an inode after a number of its names went. -/
def Input.statsAfter (input : Input Link Path Name Digest) (ino n : ℕ) : Stats :=
  ⟨ino, (input.disk.file ino).size, (input.disk.file ino).mtime, (input.disk.file ino).ctime + n⟩

/-- The names of an inode among those that went. -/
def Input.gone (input : Input Link Path Name Digest) (done : List (Placed Link Digest)) (ino : ℕ) : ℕ :=
  input.disk.named (done.map Placed.link) ino

/-- What the loop has done once it unlinked some names. -/
structure Done (input : Input Link Path Name Digest) (done : List (Placed Link Digest)) (work : Work Link Digest) : Prop where
  disk : Gone input.disk (done.map Placed.link) work.disk
  /-- A noted change spans the unlink of one name, which could be opened. -/
  changes : ∀ ino change, work.changed.get? ino = some change → ∃ entry n, entry ∈ done ∧ entry.identity = ino ∧
    input.opens entry.link = true ∧ n < input.gone done ino ∧
      change = ⟨entry.sha256, input.statsAfter ino n, some (input.statsAfter ino (n + 1))⟩
  /-- The only name of an inode that stays was noted if it could be opened. -/
  noted : ∀ entry ∈ done, input.gone done entry.identity = 1 → 1 < input.disk.nlink entry.identity → input.opens entry.link = true →
    work.changed.get? entry.identity =
      some ⟨entry.sha256, input.statsAfter entry.identity 0, some (input.statsAfter entry.identity 1)⟩
  /-- Every name is counted. -/
  counted : work.kept + work.freed = (done.map fun entry => input.size entry.identity).sum
  /-- The last link of an inode is counted as freed. -/
  freed : work.freed = ∑ ino ∈ input.released,
    if 0 < input.gone done ino ∧ input.disk.nlink ino = input.gone done ino then input.size ino else 0

theorem gone_append (hplaced : entry ∈ input.journal) :
    input.gone (done ++ [entry]) ino = input.gone done ino + if entry.identity = ino then 1 else 0 := by
  rw [Input.gone, map_append, named_append, List.map_singleton, named_singleton (input.placed entry hplaced)]
  rfl

theorem Done.nil : Done input [] { disk := input.disk } where
  disk := Gone.nil input.disk
  changes := fun _ _ hchange => nomatch hchange
  noted := fun _ hentry => nomatch hentry
  counted := rfl
  freed := (Finset.sum_eq_zero fun _ _ => if_neg fun h => absurd h.1 (lt_irrefl 0)).symm

theorem gone_pos (hplaced : entry ∈ input.journal) (hdone : entry ∈ done) : 0 < input.gone done entry.identity :=
  List.count_pos_iff.mpr (List.mem_map.mpr ⟨entry.link, List.mem_map_of_mem hdone, input.placed entry hplaced⟩)

/-- The inode of a name that goes next. -/
structure Next (input : Input Link Path Name Digest) (done : List (Placed Link Digest)) (work : Work Link Digest)
    (entry : Placed Link Digest) : Prop where
  /-- The name is there. -/
  get? : work.disk.links.get? entry.link = some entry.identity
  /-- It goes. -/
  disk : Gone input.disk ((done ++ [entry]).map Placed.link) (work.disk.unlink entry.link)
  /-- The links that the inode has. -/
  nlink : input.disk.nlink entry.identity = work.disk.nlink entry.identity + input.gone done entry.identity
  /-- There is one at least. -/
  positive : 0 < work.disk.nlink entry.identity
  size : (work.disk.file entry.identity).size = input.size entry.identity
  before : work.disk.stats entry.identity = input.statsAfter entry.identity (input.gone done entry.identity)
  /-- The stats right after. -/
  after : (work.disk.unlink entry.link).stats entry.identity = input.statsAfter entry.identity (input.gone done entry.identity + 1)

theorem Done.next (h : Done input done work) (hplaced : entry ∈ input.journal) (hfresh : entry.link ∉ done.map Placed.link) :
    Next input done work entry := by
  have hbefore := input.placed entry hplaced
  have hdisk : Gone input.disk ((done ++ [entry]).map Placed.link) (work.disk.unlink entry.link) := by
    rw [map_append]
    exact h.disk.unlink hfresh hbefore
  have hgone : input.disk.named ((done ++ [entry]).map Placed.link) entry.identity = input.gone done entry.identity + 1 := by
    have happend : input.gone (done ++ [entry]) entry.identity = input.gone done entry.identity + _ := gone_append hplaced
    rw [if_pos rfl] at happend
    exact happend
  have hnlink := h.disk.nlink entry.identity
  have hless := hdisk.nlink entry.identity
  refine ⟨by rw [h.disk.get?, if_neg hfresh, hbefore], hdisk, hnlink, ?_, ?_, ?_, ?_⟩
  · change _ = _ + input.gone done entry.identity at hnlink
    omega
  · rw [h.disk.file]
    rfl
  · rw [Disk.stats, h.disk.file]
    rfl
  · rw [Disk.stats, hdisk.file, hgone]
    rfl

/-- What was noted stays when a name goes, unless its inode is noted again. -/
theorem Done.changes_append (h : Done input done work) (hplaced : entry ∈ input.journal) (hchange : work.changed.get? ino = some change) :
    ∃ found n, found ∈ done ++ [entry] ∧ found.identity = ino ∧ input.opens found.link = true ∧ n < input.gone (done ++ [entry]) ino ∧
      change = ⟨found.sha256, input.statsAfter ino n, some (input.statsAfter ino (n + 1))⟩ := by
  obtain ⟨found, n, hfound, hidentity, hopens, hless, rfl⟩ := h.changes ino change hchange
  refine ⟨found, n, List.mem_append_left _ hfound, hidentity, hopens, ?_, rfl⟩
  rw [gone_append hplaced]
  exact Nat.lt_add_right _ hless

/-- The only name of an inode, among one more. -/
theorem only_append {found : Placed Link Digest} (hplaced : entry ∈ input.journal) (hdone : ∀ found ∈ done, found ∈ input.journal)
    (hfound : found ∈ done ++ [entry]) (hone : input.gone (done ++ [entry]) found.identity = 1) :
    found ∈ done ∧ found.identity ≠ entry.identity ∧ input.gone done found.identity = 1 ∨
      found = entry ∧ input.gone done entry.identity = 0 := by
  rw [gone_append hplaced] at hone
  rcases List.mem_append.mp hfound with hmem | hlast
  · have hpos := gone_pos (hdone found hmem) hmem
    have hne : entry.identity ≠ found.identity := by
      intro hsame
      rw [if_pos hsame] at hone
      omega
    rw [if_neg hne] at hone
    exact .inl ⟨hmem, Ne.symm hne, hone⟩
  obtain rfl := List.mem_singleton.mp hlast
  rw [if_pos rfl] at hone
  exact .inr ⟨rfl, by omega⟩

theorem Done.unlink (h : Done input done work) (hplaced : entry ∈ input.journal) (hfresh : entry.link ∉ done.map Placed.link)
    (hdone : ∀ found ∈ done, found ∈ input.journal) :
    ∃ work', work.unlink input.opens entry = some work' ∧ Done input (done ++ [entry]) work' := by
  have hnext := h.next hplaced hfresh
  have hcounted : ((done ++ [entry]).map fun entry => input.size entry.identity).sum =
      (done.map fun entry => input.size entry.identity).sum + input.size entry.identity := by
    rw [map_append, List.sum_append, List.map_singleton, List.sum_singleton]
  by_cases hother : 1 < work.disk.nlink entry.identity
  · refine ⟨work.keep input.opens entry entry.identity, ?_, ?_⟩
    · unfold Work.unlink
      rw [hnext.get?]
      dsimp only
      rw [if_neg (fun hne => hne rfl), if_pos hother]
    unfold Work.keep
    refine ⟨hnext.disk, ?_, ?_, ?_, ?_⟩
    · intro ino change hchange
      dsimp only at hchange
      split_ifs at hchange with hopens
      · rw [Dict.get?_set] at hchange
        split_ifs at hchange with hsame
        · subst hsame
          refine ⟨entry, input.gone done entry.identity, List.mem_append_right _ mem_cons_self, rfl, hopens, ?_, ?_⟩
          · rw [gone_append hplaced, if_pos rfl]
            exact Nat.lt_succ_self _
          · rw [← Option.some.inj hchange, hnext.before, hnext.after]
        · exact h.changes_append hplaced hchange
      · exact h.changes_append hplaced hchange
    · intro found hfound hone hstays hopens
      dsimp only
      rcases only_append hplaced hdone hfound hone with ⟨hmem, hne, hgone⟩ | ⟨rfl, hgone⟩
      · have hnoted := h.noted found hmem hgone hstays hopens
        split_ifs
        · rw [Dict.get?_set_of_ne hne, hnoted]
        · exact hnoted
      · rw [if_pos hopens, Dict.get?_set_self, hnext.before, hnext.after, hgone]
    · have hsum := h.counted
      dsimp only
      rw [hcounted, hnext.size]
      omega
    · rw [h.freed]
      refine Finset.sum_congr rfl fun ino _ => ?_
      rw [gone_append hplaced]
      by_cases hsame : entry.identity = ino
      · subst hsame
        have hnlink := hnext.nlink
        rw [if_neg (by omega), if_neg (by rw [if_pos rfl]; omega)]
      · rw [if_neg hsame]
        rfl
  · have hone : work.disk.nlink entry.identity = 1 := by
      have hpos := hnext.positive
      omega
    refine ⟨work.free entry entry.identity, ?_, ?_⟩
    · unfold Work.unlink
      rw [hnext.get?]
      dsimp only
      rw [if_neg (fun hne => hne rfl), if_neg hother]
    unfold Work.free
    refine ⟨hnext.disk, fun ino change hchange => h.changes_append hplaced hchange, ?_, ?_, ?_⟩
    · intro found hfound hgone hstays hopens
      rcases only_append hplaced hdone hfound hgone with ⟨hmem, -, hgone⟩ | ⟨rfl, hgone⟩
      · exact h.noted found hmem hgone hstays hopens
      · have hnlink := hnext.nlink
        omega
    · have hsum := h.counted
      dsimp only
      rw [hcounted, hnext.size]
      omega
    have hreleased : entry.identity ∈ input.released := List.mem_toFinset.mpr (List.mem_map_of_mem hplaced)
    have hterm : ∀ ino, (if 0 < input.gone (done ++ [entry]) ino ∧ input.disk.nlink ino = input.gone (done ++ [entry]) ino then
          input.size ino else 0) =
        (if 0 < input.gone done ino ∧ input.disk.nlink ino = input.gone done ino then input.size ino else 0) +
          if entry.identity = ino then input.size ino else 0 := by
      intro ino
      rw [gone_append hplaced]
      by_cases hsame : entry.identity = ino
      · subst hsame
        have hnlink := hnext.nlink
        rw [if_pos rfl, if_pos rfl, if_pos (by omega), if_neg (by omega), Nat.zero_add]
      · rw [if_neg hsame, if_neg hsame]
        rfl
    simp only [hterm]
    rw [Finset.sum_add_distrib, ← h.freed, Finset.sum_ite_eq, if_pos hreleased, hnext.size]

/-- The loop unlinks all names. -/
theorem Done.foldlM (h : Done input done work) (hsplit : input.journal = done ++ todo) :
    ∃ work', todo.foldlM (Work.unlink input.opens) work = some work' ∧ Done input input.journal work' := by
  induction todo generalizing done work with
  | nil =>
    rw [List.append_nil] at hsplit
    exact ⟨work, rfl, hsplit ▸ h⟩
  | cons entry todo ih =>
    have hplaced : entry ∈ input.journal := hsplit ▸ List.mem_append_right _ mem_cons_self
    have hdone : ∀ found ∈ done, found ∈ input.journal := fun found hfound => hsplit ▸ List.mem_append_left _ hfound
    have hfresh : entry.link ∉ done.map Placed.link := by
      have hnodup := (List.nodup_append.mp input.distinct).1
      rw [hsplit, map_append] at hnodup
      exact fun hmem => (List.disjoint_of_nodup_append hnodup) hmem mem_cons_self
    obtain ⟨work', hunlink, hdone'⟩ := h.unlink hplaced hfresh hdone
    rw [List.foldlM_cons, hunlink]
    exact ih hdone' (by rw [hsplit, List.append_cons])

end Loop

variable [DecidableEq Digest]

def Input.release (input : Input Link Path Name Digest) : Option (Released Link Path Name Digest) :=
  Release.release input.lookup input.opens input.disk input.journal input.staged input.receipts

/-- A receipt entry is current: its stats are those of the file, and its digest is that of the content. -/
def Current (disk : Disk Link Digest) (lookup : Lookup Path Name Link) (receipt : Receipt Path Name Digest) (name : Name)
    (values : Stats) : Prop :=
  ∃ ino, disk.find lookup receipt.path name = some ino ∧ (disk.file ino).regular = true ∧ disk.stats ino = values ∧
    receipt.files.get? name = some (disk.file ino).digest

/-- What a release does to a receipt. -/
structure Kept (lookup : Lookup Path Name Link) (disk after : Disk Link Digest) (receipt refreshed : Receipt Path Name Digest) : Prop where
  /-- It is about the same directory. -/
  path : refreshed.path = receipt.path
  /-- It has the same digests. -/
  files : refreshed.files = receipt.files
  /-- It has entries of the same names, and what are no stats stays. -/
  names : ∀ name, refreshed.fileStats.get? name = none ↔ receipt.fileStats.get? name = none
  /-- What are no stats stays. -/
  others : ∀ name, receipt.fileStats.get? name = some none → refreshed.fileStats.get? name = some none
  /-- An entry that was current is current if its file still exists. -/
  current : ∀ name values, receipt.fileStats.get? name = some (some values) → Current disk lookup receipt name values →
    (after.find lookup receipt.path name).isSome = true →
      ∃ now, refreshed.fileStats.get? name = some (some now) ∧ Current after lookup refreshed name now
  /-- An entry that was not current is not made so. -/
  stale : ∀ name values now, receipt.fileStats.get? name = some (some values) → ¬Current disk lookup receipt name values →
    refreshed.fileStats.get? name = some (some now) → ¬Current after lookup refreshed name now

/-- What a release does to other files' receipts, and what it counts. -/
structure Keeps (input : Input Link Path Name Digest) (result : Released Link Path Name Digest) : Prop where
  receipts : List.Forall₂ (Kept input.lookup input.disk result.disk) input.receipts result.receipts
  /-- Every released inode is counted once. -/
  counted : result.kept + result.freed = ∑ ino ∈ input.released, input.size ino
  /-- It is freed exactly where its last link went. -/
  freed : result.freed = ∑ ino ∈ input.released, if result.disk.nlink ino = 0 then input.size ino else 0

/-- Released inodes have one name, and none that is left in a staging directory where it is the last one; the inode of a current
receipt entry that stays could be opened, and the journal has its digest. -/
structure Alone (input : Input Link Path Name Digest) : Prop where
  /-- What is counted. -/
  bytes : ∀ ino ∈ input.released, input.size ino = 0 ∨
    input.names ino = 1 ∧ (input.leftovers ino = 0 ∨ input.disk.nlink ino ≠ 1 + input.leftovers ino)
  recorded : ∀ receipt ∈ input.receipts, ∀ name values, receipt.fileStats.get? name = some (some values) →
    Current input.disk input.lookup receipt name values →
      (∀ link, input.lookup receipt.path name = some link → link ∉ input.journaled ++ input.staged) →
        input.leftovers values.ino = 0 ∧ ∀ entry ∈ input.journal, entry.identity = values.ino →
          input.names values.ino = 1 ∧ input.opens entry.link = true ∧ entry.sha256 = (input.disk.file values.ino).digest

section Release

variable {input : Input Link Path Name Digest} {work : Work Link Digest} {receipt : Receipt Path Name Digest} {name : Name}
  {values : Stats} {ino : ℕ}

/-- What a release that completes leaves. -/
theorem exists_release (input : Input Link Path Name Digest) : ∃ work, Done input input.journal work ∧
    Gone input.disk (input.journaled ++ input.staged) (input.staged.foldl Disk.unlink work.disk) ∧
      input.release = some {
        disk := input.staged.foldl Disk.unlink work.disk
        receipts := input.receipts.map (Receipt.refresh work.disk input.lookup work.changed false)
        unlinked := work.unlinked
        freed := work.freed
        kept := work.kept } := by
  have hnil : Done input [] { disk := input.disk } := Done.nil
  obtain ⟨work, hfold, hdone⟩ := hnil.foldlM rfl
  refine ⟨work, hdone, hdone.disk.foldl input.distinct input.left, ?_⟩
  unfold Input.release Release.release
  rw [hfold]
  rfl

/-- The stats of an entry after the refresh of a release, where they changed: there is one change that spans the unlink of a
name, from the recorded stats to those that the file has. -/
theorem refreshed_ne (hdone : Done input input.journal work)
    (hne : refreshed work.disk input.lookup work.changed false receipt name values ≠ values) :
    ∃ entry ∈ input.journal, ∃ n < input.names values.ino, entry.identity = values.ino ∧ input.opens entry.link = true ∧
      values = input.statsAfter values.ino n ∧ receipt.files.get? name = some entry.sha256 ∧
        work.disk.find input.lookup receipt.path name = some values.ino ∧
          refreshed work.disk input.lookup work.changed false receipt name values = input.statsAfter values.ino (n + 1) ∧
            work.disk.stats values.ino = input.statsAfter values.ino (n + 1) := by
  unfold refreshed at hne ⊢
  cases hchange : work.changed.get? values.ino with
  | none =>
    rw [hchange] at hne
    exact absurd rfl hne
  | some =>
    rw [hchange] at hne
    dsimp only at hne ⊢
    obtain ⟨entry, n, hentry, hidentity, hopens, hless, rfl⟩ := hdone.changes _ _ hchange
    by_cases hmatch : matchesBefore false values (input.statsAfter values.ino n) = false ∨ receipt.files.get? name ≠ some entry.sha256
    · rw [if_pos hmatch] at hne
      exact absurd rfl hne
    rw [if_neg hmatch] at hne ⊢
    rw [not_or, not_not, Bool.not_eq_false] at hmatch
    have hvalues : values = input.statsAfter values.ino n := of_decide_eq_true hmatch.1
    cases hfind : work.disk.find input.lookup receipt.path name with
    | none =>
      rw [hfind] at hne
      exact absurd rfl hne
    | some ino =>
      rw [hfind] at hne
      dsimp only at hne ⊢
      split_ifs at hne ⊢ with hregular hcontent
      · exact absurd rfl hne
      · exact absurd rfl hne
      rw [not_or, not_not, Option.any_some, decide_eq_true_eq, not_not] at hcontent
      have hino : ino = values.ino := congrArg Prod.fst hcontent.1
      subst hino
      exact ⟨entry, hentry, n, hless, hidentity, hopens, hvalues, hmatch.2, rfl, hcontent.2.symm, hcontent.2.symm⟩

end Release

end SparkRing.Release
