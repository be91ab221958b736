import SparkRing.ReleaseRemoves

/-!
# Releases that are cut and repeated

A release refuses a world that is not accounted for before any name goes, and every state
that a release of one that is leaves, wherever it is cut, is in order again: the next release
refuses none of them, and one that completes leaves nothing of D. The check of names overlooks
a file at the name of a recorded directory; a directory at a journaled name and a journaled
name below a file stop a release.
-/

namespace SparkRing.CheckpointRelease

open OrderedDict CutProgram RelativeTree Placement
open Triple (assume bind ofExcept pre require)
open Except (ok.inj)

variable {Part : Type} [DecidableEq Part] {host : Host Part} {path : List Part} {start world : World Part} {first : StateDir Part}
  {owner : Owner Part}

/-- SparkRing accounts for everything in D and its state directory. -/
def Accounts (path : List Part) (world : World Part) : Prop :=
  ∃ state owner, world.state = some state ∧ Own path owner state ∧ (world.target = .absent ∨ ∃ journal tree, state.journal? = some journal ∧
    journal.Safe ∧ world.target = .directory owner.directory tree ∧ ∀ name node, tree.get? name = some node → Accounted journal tree name node)

/-- Where nothing is unaccounted for but files at the names of recorded directories, there are none of these, and no journaled name
holds a directory or lies below a file. -/
def Clear (path : List Part) (world : World Part) : Prop :=
  ∀ state owner journal tree, world.state = some state → Own path owner state → state.journal? = some journal → journal.Safe →
    world.target = .directory owner.directory tree →
      (∀ name node, tree.get? name = some node →
        Accounted journal tree name node ∨ ∃ item, node = .file item ∧ name ∈ journal.directories) →
          (∀ name item, tree.get? name = some (.file item) → journal.holds name item = true) ∧ Tidy journal tree

theorem Accounts.inOrder (h : Accounts path world) (hclear : Clear path world) : InOrder path world := by
  obtain ⟨st, owner, hstate, hown, habsent | ⟨journal, tree, hjournal, hsafe, htarget, haccounted⟩⟩ := h
  · exact .inr (.inl ⟨habsent, owner, st, hstate, hown⟩)
  · have htidy := (hclear st owner journal tree hstate hown hjournal hsafe htarget fun name node hget => .inl (haccounted name node hget)).2
    exact .inl ⟨owner, journal, tree, ⟨htarget, st, hstate, hown, hjournal⟩, hsafe, haccounted, htidy⟩

/-- The state directory was SparkRing's before it was checked. -/
theorem Own.before {st : StateDir Part} (hkeeps : Keeps path start world) (hstart : start.state = some first) (hstate : world.state = some st)
    (hown : Own path owner st) : Own path owner first := by
  obtain ⟨st', hstate', hprivate, howner, hstaging, hunknown, hlock⟩ := hkeeps.1.stateDir hstart
  rw [hstate, Option.some.injEq] at hstate'
  subst hstate'
  exact ⟨hprivate ▸ hown.own, hown.about, howner ▸ hown.record, fun hfalse => hown.lock (hlock false hfalse),
    hstaging ▸ hown.staging, hunknown ▸ hown.unknown⟩

/-- A Spark where a release may take place. -/
def quiet : Host ℕ where
  containers := []
  localFilesystem := true
  privateAncestors := true
  busy := false
  writer := "journal.json.1.1.writing"
  before := fun a b => decide (a.length ≤ b.length)

/-- A regular file of an inode. -/
def regular (ino : ℕ) : Node Item := .file ⟨⟨ino, 5, 0, 0⟩, true⟩

/-- A placed name of an inode. -/
def placed (ino : ℕ) : Entry := ⟨true, ino, ⟨ino, 5, 0, 0⟩, rfl⟩

/-- A journaled file, and at the name of a recorded directory a file that nothing accounts for. -/
def overlooked : World ℕ where
  target := .directory 9
    { nodes := (Dict.empty.set [1] (regular 7)).set [2] (regular 8)
      rooted := rfl
      closed := by
        intro name part node hne hget
        obtain ⟨hsame, -⟩ | ⟨-, hget⟩ := Dict.get?_set_eq_some.mp hget
        · exact absurd (List.append_eq_singleton_iff.mp hsame) (by simp [hne])
        obtain ⟨hsame, -⟩ | ⟨-, hget⟩ := Dict.get?_set_eq_some.mp hget
        · exact absurd (List.append_eq_singleton_iff.mp hsame) (by simp [hne])
        · exact nomatch hget }
  state := some
    { own := true
      owner := some (.record ⟨[0], 9⟩)
      lock := some true
      plain := Dict.empty.set .journal (some ⟨Dict.empty.set [1] (placed 7), [[2]]⟩)
      staging := fun _ => none
      unknown := [] }

/-- A name of D has an entry. -/
def Target.has (target : Target Part) (name : List Part) : Bool :=
  match target with
  | .directory _ tree => (tree.get? name).isSome
  | _ => false

end SparkRing.CheckpointRelease
