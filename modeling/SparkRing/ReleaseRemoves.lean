import SparkRing.ReleaseChecks

/-!
# What a release removes

Once D and its state directory are checked, every operation removes a journaled name that
holds its recorded inode, a recorded directory that is empty, or D itself when it is empty,
and keeps the world in order: the directories are recorded before any name goes, a name goes
before its journal entry does, and the owner record goes last.
-/

namespace SparkRing.CheckpointRelease

open OrderedDict CutProgram RelativeTree Placement
open Triple (assume bind foldlM onlyIf pre require)

variable {Part : Type} [DecidableEq Part] {staging : Option (Staging Part)} {done : List Purpose}

/-- What an operation of a release may change of D. -/
def Changes (world after : World Part) : Prop :=
  after.target = world.target ∨ after.state = world.state ∧ ∃ state owner journal tree, world.state = some state ∧
    state.owner = some (.record owner) ∧ state.journal? = some journal ∧ world.target = .directory owner.directory tree ∧
      -- A journaled name that holds its recorded inode, a recorded directory, or D.
      ((∃ name item, tree.get? name = some (.file item) ∧ journal.holds name item = true ∧
          after.target = .directory owner.directory (tree.remove name)) ∨
        (∃ name, tree.get? name = some .directory ∧ name ∈ journal.directories ∧ tree.children name = [] ∧
          after.target = .directory owner.directory (tree.remove name)) ∨
        tree.Empty ∧ after.target = .absent)

/-- An operation changes what it may and leaves everything accounted for. -/
def Removes (path : List Part) (world after : World Part) : Prop := Changes world after ∧ InOrder path after

/-- D and its state directory are there and in order. -/
structure Stands (path : List Part) (owner : Owner Part) (journal : Journal Part) (tree : Tree Part Item) (world : World Part) : Prop where
  /-- They are there. -/
  holds : Holds path owner journal tree world
  /-- The names are safe. -/
  safe : journal.Safe
  /-- Everything is accounted for. -/
  fits : Fits journal tree

section Stands

variable {host : Host Part} {path : List Part} {owner : Owner Part} {journal journal' : Journal Part} {tree : Tree Part Item}
  {world : World Part} {name : List Part} {item : Item} {E : Refusal Part → World Part → Prop}

theorem Stands.inOrder (h : Stands path owner journal tree world) : InOrder path world :=
  .inl ⟨owner, journal, tree, h.holds, h.safe, h.fits⟩

theorem Loaded.stands {start : World Part} {first : StateDir Part} (h : Loaded path start owner.directory tree journal world)
    (hstart : start.state = some first) (hrecord : first.owner = some (.record owner)) (horder : InOrder path start) :
    Stands path owner journal tree world := by
  obtain ⟨st, hstate, hheld⟩ := h.state
  obtain ⟨st', hstate', howner⟩ := h.keeps.stateDir hstart
  rw [hstate, Option.some.injEq] at hstate'
  subst hstate'
  have hworld := h.keeps.2 horder
  obtain ⟨journal', hheld', hsafe, hfits⟩ := hworld.held h.target hstate
  obtain rfl := Option.some.inj (hheld.symm.trans hheld')
  exact ⟨⟨h.target, st, hstate, hworld.own hstate (howner.trans hrecord), hheld⟩, hsafe, hfits⟩

theorem Keeps.removes {after : World Part} (h : Keeps path world after) (horder : InOrder path world) : Removes path world after :=
  ⟨.inl h.1.1, h.2 horder⟩

theorem triple_save (hforget : journal.Safe → journal'.Safe) (hfits : Fits journal tree → Fits journal' tree) :
    Triple (Removes path) (Stands path owner journal tree) (journalSave host journal') (fun _ => Stands path owner journal' tree) E := by
  intro w hw
  obtain ⟨st, hstate, hown, hheld⟩ := hw.holds.state
  have hsave : Triple (Keeps path) (Loaded path w owner.directory tree journal) (journalSave host journal')
      (fun _ => Loaded path w owner.directory tree journal') E := triple_journalSave hstate hown.record hforget hfits
  have hkeep := hsave.keep (I := InOrder path) (fun _ _ horder hstep => hstep.2 horder) fun s hs => hs.keeps.2 hw.inOrder
  have hremoves := hkeep.steps (S := Removes path) fun s t hstep => ⟨.inl hstep.1.1.1, hstep.2⟩
  exact (hremoves.post fun _ s hs => hs.stands hstate hown.record hw.inOrder) w
    ⟨Keeps.refl path w, hw.holds.target, ⟨st, hstate, hheld⟩, hw.safe⟩

/-- D is changed. -/
theorem Holds.onTarget {tree' : Tree Part Item} (h : Holds path owner journal tree world) :
    Holds path owner journal tree' { world with target := .directory owner.directory tree' } := ⟨rfl, h.state⟩

theorem Fits.unlink (h : Fits journal tree) (hrecorded : ∀ name, tree.get? name = some .directory → name ∈ journal.directories) :
    Fits journal (tree.remove name) where
  accounted := fun other node hget => by
    have hbefore := Tree.get?_of_remove hget
    cases node with
    | file => exact h.accounted other _ hbefore
    | directory => exact .inl (hrecorded other hbefore)
  tidy := ⟨fun other hother hget => h.tidy.directory other hother (Tree.get?_of_remove hget),
    fun other hother above item hbelow hget => h.tidy.above other hother above item hbelow (Tree.get?_of_remove hget)⟩

def Journal.without (journal : Journal Part) (name : List Part) : Journal Part := { journal with files := journal.files.erase name }

end Stands

section StateDir

variable {path : List Part} {owner : Owner Part} {E : Refusal Part → World Part → Prop} {F G : StateDir Part → Prop}
  {f : StateDir Part → StateDir Part}

/-- Only the state directory is left. -/
def Left (path : List Part) (owner : Owner Part) (F : StateDir Part → Prop) (world : World Part) : Prop :=
  world.target = .absent ∧ ∃ state, world.state = some state ∧ Own path owner state ∧ F state

theorem Left.mono {world : World Part} (h : Left path owner F world) (himp : ∀ st, Own path owner st → F st → G st) :
    Left path owner G world := by
  obtain ⟨habsent, st, hstate, hown, hF⟩ := h
  exact ⟨habsent, st, hstate, hown, himp st hown hF⟩

/-- Staging directories of some purposes are gone. -/
def Unstaged (done : List Purpose) (st : StateDir Part) : Prop := ∀ purpose ∈ done, st.staging purpose = none

omit [DecidableEq Part] in
theorem staging_onStaging {st : StateDir Part} {purpose other : Purpose} :
    (st.onStaging purpose staging).staging other = if other = purpose then staging else st.staging other := Function.update_apply ..

variable {purpose : Purpose}

theorem Own.onStaging {st : StateDir Part} (h : Own path owner st)
    (hstaging : ∀ new, staging = some new → new.accepted path purpose = true) : Own path owner (st.onStaging purpose staging) := by
  refine ⟨h.own, h.about, h.record, h.lock, fun other new hget => ?_, h.unknown⟩
  rw [staging_onStaging] at hget
  split_ifs at hget with hsame
  · rw [hsame]
    exact hstaging new hget
  · exact h.staging other new hget

theorem Unstaged.onStaging {st : StateDir Part}
    (h : Unstaged done st) (hfresh : purpose ∉ done) : Unstaged done (st.onStaging purpose staging) := by
  intro other hother
  have hne : other ≠ purpose := fun hsame => hfresh (hsame ▸ hother)
  rw [staging_onStaging, if_neg hne]
  exact h other hother

end StateDir

end SparkRing.CheckpointRelease
