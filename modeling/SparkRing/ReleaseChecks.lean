import SparkRing.ReleaseSteps

/-!
# What a release checks before any name goes

A world is in order where SparkRing accounts for everything that D and its state directory
hold. The checks of a release change nothing but its own files: they keep a world in order,
they refuse none that is in order, and what passes them holds nothing unaccounted for but, at
the name of a recorded directory, a file that they overlook.
-/

namespace SparkRing.CheckpointRelease

open OrderedDict CutProgram RelativeTree Placement
open Triple (assume bind pre require)
open Option (any_some some.inj some.injEq)

variable {Part : Type} [DecidableEq Part]

/-- The state directory is SparkRing's, and holds what SparkRing creates there. -/
structure Own (path : List Part) (owner : Owner Part) (state : StateDir Part) : Prop where
  /-- It belongs to this account. -/
  own : state.own = true
  /-- The owner record is of D. -/
  about : owner.path = path
  /-- It is there. -/
  record : state.owner = some (.record owner)
  /-- The lock is a regular file. -/
  lock : state.lock ≠ some false
  /-- The staging directories are marked, or empty. -/
  staging : ∀ purpose staging, state.staging purpose = some staging → staging.accepted path purpose = true
  /-- It holds nothing else. -/
  unknown : state.unknown = []

/-- The journal that a state directory holds, empty where the file is absent. -/
def StateDir.journal? (state : StateDir Part) : Option (Journal Part) :=
  match state.plain.get? .journal with
  | none => some ⟨Dict.empty, []⟩
  | some journal => journal

/-- The names of a journal are safe. -/
def Journal.Safe (journal : Journal Part) : Prop := [] ∉ journal.files.keys ∧ [] ∉ journal.directories

/-- An entry of D that the journal accounts for. -/
def Accounted (journal : Journal Part) (tree : Tree Part Item) (name : List Part) : Node Item → Prop
  | .file item => journal.holds name item = true
  | .directory => name ∈ journal.directories ∨ ∃ below ∈ journal.files.keys, tree.get? below ≠ none ∧ Below below name

/-- No journaled name holds a directory or lies below a file. -/
structure Tidy (journal : Journal Part) (tree : Tree Part Item) : Prop where
  /-- None holds a directory. -/
  directory : ∀ name ∈ journal.files.keys, tree.get? name ≠ some .directory
  /-- None lies below a file. -/
  above : ∀ name ∈ journal.files.keys, ∀ above item, Below name above → tree.get? above ≠ some (.file item)

/-- Everything in D is accounted for. -/
structure Fits (journal : Journal Part) (tree : Tree Part Item) : Prop where
  /-- Every entry. -/
  accounted : ∀ name node, tree.get? name = some node → Accounted journal tree name node
  tidy : Tidy journal tree

/-- D and its state directory. -/
structure Holds (path : List Part) (owner : Owner Part) (journal : Journal Part) (tree : Tree Part Item) (world : World Part) : Prop where
  target : world.target = .directory owner.directory tree
  state : ∃ state, world.state = some state ∧ Own path owner state ∧ state.journal? = some journal

/-- Only the state directory remains. -/
def StateOnly (path : List Part) (world : World Part) : Prop :=
  world.target = .absent ∧ ∃ owner state, world.state = some state ∧ Own path owner state

/-- Nothing of D remains, and of its state directory at most an empty directory. -/
def Finished (world : World Part) : Prop :=
  world.target = .absent ∧ ∀ state, world.state = some state →
    state.owner = none ∧ state.lock = none ∧ state.plain.keys = [] ∧ (∀ purpose, state.staging purpose = none) ∧ state.unknown = []

/-- Everything is accounted for, or nothing is left. -/
def InOrder (path : List Part) (world : World Part) : Prop :=
  (∃ owner journal tree, Holds path owner journal tree world ∧ journal.Safe ∧ Fits journal tree) ∨ StateOnly path world ∨ Finished world

/-- No name changed, and of the state directory only the lock, the journal and temporary files. -/
def Unchanged (world after : World Part) : Prop :=
  after.target = world.target ∧
    match world.state with
    | none => after.state = none
    | some state => ∃ state', after.state = some state' ∧ state'.own = state.own ∧ state'.owner = state.owner ∧
        state'.staging = state.staging ∧ state'.unknown = state.unknown ∧ ∀ regular, state.lock = some regular → state'.lock = some regular

/-- What the checks of a release keep. -/
def Keeps (path : List Part) (world after : World Part) : Prop := Unchanged world after ∧ (InOrder path world → InOrder path after)

section Relations

variable {path : List Part} {world middle after : World Part} {st : StateDir Part} {owner : Owner Part} {journal journal' : Journal Part}
  {tree : Tree Part Item}

theorem Unchanged.refl (world : World Part) : Unchanged world world := by
  refine ⟨rfl, ?_⟩
  cases world.state with
  | none => rfl
  | some state => exact ⟨state, rfl, rfl, rfl, rfl, rfl, fun _ h => h⟩

theorem Unchanged.trans (h : Unchanged world middle) (h' : Unchanged middle after) : Unchanged world after := by
  refine ⟨h'.1.trans h.1, ?_⟩
  have hstate := h.2
  have hstate' := h'.2
  cases hworld : world.state with
  | none =>
    rw [hworld] at hstate
    rw [hstate] at hstate'
    exact hstate'
  | some =>
    rw [hworld] at hstate
    obtain ⟨state', hmiddle, hown, howner, hstaging, hunknown, hlock⟩ := hstate
    rw [hmiddle] at hstate'
    obtain ⟨state'', hafter, hown', howner', hstaging', hunknown', hlock'⟩ := hstate'
    exact ⟨state'', hafter, hown'.trans hown, howner'.trans howner, hstaging'.trans hstaging, hunknown'.trans hunknown,
      fun regular hregular => hlock' regular (hlock regular hregular)⟩

theorem Keeps.refl (path : List Part) (world : World Part) : Keeps path world world := ⟨Unchanged.refl world, fun h => h⟩

theorem Keeps.trans (h : Keeps path world middle) (h' : Keeps path middle after) : Keeps path world after :=
  ⟨h.1.trans h'.1, fun horder => h'.2 (h.2 horder)⟩

/-- A state directory that no check changed. -/
theorem Unchanged.stateDir (h : Unchanged world after) (hstate : world.state = some st) :
    ∃ st', after.state = some st' ∧ st'.own = st.own ∧ st'.owner = st.owner ∧ st'.staging = st.staging ∧
      st'.unknown = st.unknown ∧ ∀ regular, st.lock = some regular → st'.lock = some regular := by
  have hafter := h.2
  rw [hstate] at hafter
  exact hafter

section

variable (h : InOrder path world)

include h

theorem InOrder.holds {ino : ℕ} (htarget : world.target = .directory ino tree) :
    ∃ owner journal, Holds path owner journal tree world ∧ journal.Safe ∧ Fits journal tree := by
  obtain ⟨owner, journal, tree', hholds, hsafe, hfits⟩ | hstate | hfinished := h
  · have hsame := hholds.target.symm.trans htarget
    cases hsame
    exact ⟨owner, journal, hholds, hsafe, hfits⟩
  · exact absurd (htarget.symm.trans hstate.1) nofun
  · exact absurd (htarget.symm.trans hfinished.1) nofun

/-- The state directory of a world in order that has an owner record. -/
theorem InOrder.own (hstate : world.state = some st) (howner : st.owner = some (.record owner)) : Own path owner st := by
  obtain ⟨owner', journal, tree, ⟨-, state', hstate', hown, -⟩, -⟩ | ⟨-, owner', state', hstate', hown⟩ | hfinished := h
  · rw [hstate, some.injEq] at hstate'
    subst hstate'
    have hsame := howner.symm.trans hown.record
    cases hsame
    exact hown
  · rw [hstate, some.injEq] at hstate'
    subst hstate'
    have hsame := howner.symm.trans hown.record
    cases hsame
    exact hown
  · exact absurd (howner.symm.trans (hfinished.2 st hstate).1) nofun

/-- The state directory is changed, and stays in order. -/
theorem InOrder.onState {st' : StateDir Part} (hstate : world.state = some st)
    (hrecord : st.owner = some (.record owner)) (hown : Own path owner st → Own path owner st')
    (hjournal : ∀ journal, st.journal? = some journal → ∃ journal', st'.journal? = some journal' ∧
      ∀ ino tree, world.target = .directory ino tree → journal.Safe ∧ Fits journal tree → journal'.Safe ∧ Fits journal' tree) :
    InOrder path { world with state := some st' } := by
  have hown' := hown (h.own hstate hrecord)
  obtain ⟨owner', journal, tree, ⟨htarget, state', hstate', hown'', hheld⟩, hsafe, hfits⟩ | ⟨habsent, -⟩ | hfinished := h
  · rw [hstate, some.injEq] at hstate'
    subst hstate'
    have hsame := hrecord.symm.trans hown''.record
    cases hsame
    obtain ⟨journal', hjournal', hkeep⟩ := hjournal journal hheld
    exact .inl ⟨owner, journal', tree, ⟨htarget, st', rfl, hown', hjournal'⟩, hkeep owner.directory tree htarget ⟨hsafe, hfits⟩⟩
  · exact .inr (.inl ⟨habsent, owner, st', rfl, hown'⟩)
  · exact absurd (hrecord.symm.trans (hfinished.2 st hstate).1) nofun

theorem InOrder.held {ino : ℕ} (htarget : world.target = .directory ino tree) (hstate : world.state = some st) :
    ∃ journal, st.journal? = some journal ∧ journal.Safe ∧ Fits journal tree := by
  obtain ⟨owner, journal, ⟨-, st', hstate', -, hjournal⟩, hsafe, hfits⟩ := h.holds htarget
  rw [hstate, some.injEq] at hstate'
  subst hstate'
  exact ⟨journal, hjournal, hsafe, hfits⟩

end

end Relations

section Journals

variable {journal loaded : Journal Part} {tree : Tree Part Item} {name other : List Part} {item : Item} {entry : Entry} {done : List
  (List Part)}

/-- What a journal holds is told by its inodes. -/
theorem holds_congr {journal' : Journal Part}
    (h : (journal.files.get? name).map Entry.identity = (journal'.files.get? name).map Entry.identity) :
    journal.holds name item = journal'.holds name item := by
  unfold Journal.holds
  cases hget : journal.files.get? name <;> cases hget' : journal'.files.get? name <;> rw [hget, hget'] at h
  · exact nomatch h
  · exact nomatch h
  · rw [any_some, any_some, some.inj h]

/-- A journal without some names that are absent. -/
structure Forgets (tree : Tree Part Item) (loaded journal : Journal Part) : Prop where
  /-- It records the same directories. -/
  directories : journal.directories = loaded.directories
  /-- Names that are there have the same inodes. -/
  identity : ∀ name, tree.get? name ≠ none → (journal.files.get? name).map Entry.identity = (loaded.files.get? name).map Entry.identity
  /-- It has no other names. -/
  names : ∀ name ∈ journal.files.keys, name ∈ loaded.files.keys

theorem Forgets.refl (tree : Tree Part Item) (journal : Journal Part) : Forgets tree journal journal := ⟨rfl, fun _ _ => rfl, fun _ h => h⟩

theorem Forgets.trans {journal' : Journal Part} (h : Forgets tree loaded journal) (h' : Forgets tree journal journal') :
    Forgets tree loaded journal' :=
  ⟨h'.directories.trans h.directories, fun name hthere => (h'.identity name hthere).trans (h.identity name hthere),
    fun name hname => h.names name (h'.names name hname)⟩

theorem Forgets.mem_keys (h : Forgets tree loaded journal) (hthere : tree.get? name ≠ none) :
    name ∈ journal.files.keys ↔ name ∈ loaded.files.keys := by
  have hidentity := congrArg Option.isSome (h.identity name hthere)
  rw [Option.isSome_map, Option.isSome_map] at hidentity
  rw [Dict.mem_keys_iff, Dict.mem_keys_iff, ← Option.isSome_iff_exists, ← Option.isSome_iff_exists, hidentity]

theorem Forgets.erase (habsent : tree.get? name = none) :
    Forgets tree journal { journal with files := journal.files.erase name } where
  directories := rfl
  identity := fun other hthere => by
    have hne : other ≠ name := fun hsame => hthere (hsame ▸ habsent)
    rw [Dict.get?_erase_of_ne hne]
  names := fun other hother => by
    obtain ⟨entry, hget⟩ := Dict.mem_keys_iff.mp hother
    exact Dict.mem_keys_iff.mpr ⟨entry, (Dict.get?_erase_eq_some.mp hget).2⟩

theorem Forgets.place {stats : Stats} {hmeasured : stats.ino = entry.identity} (hget : journal.files.get? name = some entry) :
    Forgets tree journal { journal with files := journal.files.set name ⟨true, entry.identity, stats, hmeasured⟩ } where
  directories := rfl
  identity := fun other _ => by
    rw [Dict.get?_set]
    split_ifs with hsame
    · rw [hsame, hget]
      rfl
    · rfl
  names := fun other hother => by
    obtain ⟨entry', hother⟩ := Dict.mem_keys_iff.mp hother
    rcases Dict.get?_set_eq_some.mp hother with ⟨rfl, -⟩ | ⟨-, hget'⟩
    · exact Dict.mem_keys_iff.mpr ⟨entry, hget⟩
    · exact Dict.mem_keys_iff.mpr ⟨entry', hget'⟩

theorem Forgets.safe (h : Forgets tree loaded journal) (hsafe : loaded.Safe) : journal.Safe :=
  ⟨fun hmem => hsafe.1 (h.names [] hmem), h.directories ▸ hsafe.2⟩

theorem Forgets.accounted {node : Node Item} (h : Forgets tree loaded journal) (hget : tree.get? name = some node) :
    Accounted journal tree name node ↔ Accounted loaded tree name node := by
  cases node with
  | file =>
    unfold Accounted
    dsimp only
    rw [holds_congr (h.identity name (by rw [hget]; exact nofun))]
  | directory =>
    unfold Accounted
    rw [h.directories]
    refine or_congr_right (exists_congr fun below => ?_)
    constructor
    · exact fun ⟨hmem, hthere, hbelow⟩ => ⟨(h.mem_keys hthere).mp hmem, hthere, hbelow⟩
    · exact fun ⟨hmem, hthere, hbelow⟩ => ⟨(h.mem_keys hthere).mpr hmem, hthere, hbelow⟩

theorem Forgets.fits (h : Forgets tree loaded journal) (hfits : Fits loaded tree) : Fits journal tree where
  accounted := fun name node hget => (h.accounted hget).mpr (hfits.accounted name node hget)
  tidy := ⟨fun name hname => hfits.tidy.directory name (h.names name hname), fun name hname => hfits.tidy.above name (h.names name hname)⟩

theorem mem_wanted {names : List (List Part)} : name ∈ wanted names ↔ name ≠ [] ∧ ∃ below ∈ names, Below below name := by
  unfold wanted
  rw [List.mem_flatMap]
  simp only [mem_ancestors]
  exact ⟨fun ⟨below, hmem, hne, hbelow⟩ => ⟨hne, below, hmem, hbelow⟩, fun ⟨hne, below, hmem, hbelow⟩ => ⟨below, hmem, hne, hbelow⟩⟩

/-- What the check of names finds: a file is held by the journal, or the name is that of a recorded directory. -/
structure Checked (journal : Journal Part) (tree : Tree Part Item) : Prop where
  file : ∀ name item, tree.get? name = some (.file item) → journal.holds name item = true ∨ name ∈ journal.directories
  directory : ∀ name, tree.get? name = some .directory → name ∈ journal.directories ∨ name ∈ wanted journal.files.keys

theorem Fits.checked (h : Fits journal tree) : Checked journal tree where
  file := fun name _ hget => .inl (h.accounted name _ hget)
  directory := fun name hget => (h.accounted name _ hget).imp_right fun ⟨below, hmem, _, hbelow⟩ =>
    mem_wanted.mpr ⟨Tree.ne_nil_of_get? hget, below, hmem, hbelow⟩

end Journals

section Rules

variable {R : World Part → World Part → Prop} {P : World Part → Prop} {E : Refusal Part → World Part → Prop} {owner : Owner Part}

/-- An operation on the state directory. -/
theorem triple_onState {f : StateDir Part → StateDir Part} {Q : Unit → World Part → Prop}
    (h : ∀ w, P w → ∃ st, w.state = some st ∧ R w { w with state := some (f st) } ∧ Q () { w with state := some (f st) }) :
    Triple R P (onState f) Q E := by
  refine Triple.change fun w hw => ?_
  obtain ⟨st, hstate, hstep, hQ⟩ := h w hw
  rw [hstate]
  exact ⟨hstep, hQ⟩

end Rules

section Checks

variable {host : Host Part} {path : List Part} {owner : Owner Part} {start : World Part} {first : StateDir Part}

/-- Nothing but the lock changed. -/
structure Fresh (path : List Part) (start : World Part) (first : StateDir Part) (world : World Part) : Prop where
  /-- The checks keep what they keep. -/
  keeps : Keeps path start world
  /-- The files of the state directory. -/
  plain : ∀ state, world.state = some state → state.plain = first.plain

/-- A journal that was loaded. -/
structure Loaded (path : List Part) (start : World Part) (ino : ℕ) (tree : Tree Part Item) (journal : Journal Part)
    (world : World Part) : Prop where
  /-- The checks keep what they keep. -/
  keeps : Keeps path start world
  target : world.target = .directory ino tree
  state : ∃ state, world.state = some state ∧ state.journal? = some journal
  /-- Its names are safe. -/
  safe : journal.Safe

variable (hstart : start.state = some first) (hrecord : first.owner = some (.record owner))

include hstart

/-- The state directory during the checks. -/
theorem Keeps.stateDir {world : World Part} (h : Keeps path start world) : ∃ st, world.state = some st ∧ st.owner = first.owner := by
  obtain ⟨st, hstate, -, howner, -⟩ := h.1.stateDir hstart
  exact ⟨st, hstate, howner⟩

include hrecord

/-- The files of the state directory are changed. -/
theorem Loaded.plain {tree : Tree Part Item} {ino : ℕ} {journal journal' : Journal Part} {world : World Part} {st : StateDir Part}
    {plain : Dict StateFile (Option (Journal Part))} (h : Loaded path start ino tree journal world) (hstate : world.state = some st)
    (hjournal : StateDir.journal? { st with plain := plain } = some journal') (hsafe : journal.Safe → journal'.Safe)
    (hfits : Fits journal tree → Fits journal' tree) :
    Keeps path world { world with state := some { st with plain := plain } } ∧
      Loaded path start ino tree journal' { world with state := some { st with plain := plain } } := by
  obtain ⟨st', hstate', howner⟩ := h.keeps.stateDir hstart
  obtain ⟨st'', hstate'', hheld⟩ := h.state
  rw [hstate, some.injEq] at hstate' hstate''
  subst hstate'
  subst hstate''
  have hstep : Keeps path world { world with state := some { st with plain := plain } } := by
    refine ⟨⟨rfl, ?_⟩, fun horder => ?_⟩
    · rw [hstate]
      exact ⟨_, rfl, rfl, rfl, rfl, rfl, fun _ hregular => hregular⟩
    refine horder.onState hstate (howner.trans hrecord)
      (fun hown => ⟨hown.own, hown.about, hown.record, hown.lock, hown.staging, hown.unknown⟩) fun journal'' hjournal'' => ?_
    obtain rfl := some.inj (hheld.symm.trans hjournal'')
    refine ⟨journal', hjournal, fun ino' tree' htarget hboth => ?_⟩
    obtain ⟨-, rfl⟩ := Target.directory.inj (h.target.symm.trans htarget)
    exact ⟨hsafe hboth.1, hfits hboth.2⟩
  exact ⟨hstep, h.keeps.trans hstep, h.target, ⟨_, rfl, hjournal⟩, hsafe h.safe⟩

theorem triple_journalSave {tree : Tree Part Item} {ino : ℕ} {journal journal' : Journal Part}
    {E : Refusal Part → World Part → Prop} (hsafe : journal.Safe → journal'.Safe)
    (hfits : Fits journal tree → Fits journal' tree) :
    Triple (Keeps path) (Loaded path start ino tree journal) (journalSave host journal') (fun _ => Loaded path start ino tree journal') E := by
  have hother : ∀ {st : StateDir Part} {plain}, st.journal? = some journal → plain.get? .journal = st.plain.get? .journal →
      StateDir.journal? { st with plain := plain } = some journal := fun hjournal hplain => by
    unfold StateDir.journal? at hjournal ⊢
    rw [← hplain] at hjournal
    exact hjournal
  refine bind (Q := fun _ => Loaded path start ino tree journal) (triple_onState fun w hw => ?_) fun _ => ?_
  · obtain ⟨st, hstate, hheld⟩ := hw.state
    have hplain : (st.plain.erase (.temporary host.writer)).get? .journal = st.plain.get? .journal := Dict.get?_erase_of_ne nofun
    exact ⟨st, hstate, hw.plain hstart hrecord hstate (hother hheld hplain) id id⟩
  refine bind (Q := fun _ => Loaded path start ino tree journal) (triple_onState fun w hw => ?_) fun _ => ?_
  · obtain ⟨st, hstate, hheld⟩ := hw.state
    have hplain : (st.plain.set (.temporary host.writer) none).get? .journal = st.plain.get? .journal := Dict.get?_set_of_ne nofun
    exact ⟨st, hstate, hw.plain hstart hrecord hstate (hother hheld hplain) id id⟩
  refine triple_onState fun w hw => ?_
  obtain ⟨st, hstate, hheld⟩ := hw.state
  refine ⟨st, hstate, hw.plain hstart hrecord hstate ?_ hsafe hfits⟩
  unfold StateDir.journal?
  rw [Dict.get?_set_self]

variable {tree : Tree Part Item} {ino : ℕ} {loaded journal : Journal Part} {name : List Part} {done : List (List Part)}

end Checks

end SparkRing.CheckpointRelease
