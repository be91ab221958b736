import SparkRing.ReleasedReceipts

/-!
# A release counts one inode once and keeps its receipt current where it unlinks one name

What a release leaves is compared with what it started from: the bytes it counts inode by
inode, and every receipt entry with the file that its name leads to before and after.
-/

namespace SparkRing.Release

open OrderedDict Placement

variable {Link Path Name Digest : Type*} [DecidableEq Link] [DecidableEq Name] {input : Input Link Path Name Digest}
  {work : Work Link Digest} {ino : ℕ} {lookup : Lookup Path Name Link} {entry : Placed Link Digest} {kept : Receipt Path Name Digest}
  {disk : Disk Link Digest}

section Bytes

variable {names size : ℕ → ℕ} {released : Finset ℕ}

/-- Names count an inode once exactly where it has one name, or nothing to count. -/
theorem sum_names_iff (hnames : ∀ ino ∈ released, 0 < names ino) :
    ∑ ino ∈ released, names ino * size ino = ∑ ino ∈ released, size ino ↔ ∀ ino ∈ released, size ino = 0 ∨ names ino = 1 := by
  have hle : ∀ ino ∈ released, size ino ≤ names ino * size ino := fun ino hino => Nat.le_mul_of_pos_left _ (hnames ino hino)
  rw [eq_comm, Finset.sum_eq_sum_iff_of_le hle]
  refine forall₂_congr fun ino _ => ?_
  constructor
  · intro hsize
    rcases Nat.eq_zero_or_pos (size ino) with hzero | hpos
    · exact .inl hzero
    · exact .inr (Nat.eq_of_mul_eq_mul_right hpos (by rw [one_mul]; exact hsize.symm))
  rintro (hzero | hone)
  · rw [hzero, Nat.mul_zero]
  · rw [hone, one_mul]

end Bytes

/-- The journaled names of an inode are the entries that record it. -/
theorem names_eq : input.names ino = (input.journal.map Placed.identity).count ino := by
  have hmap : input.journaled.map input.disk.links.get? = (input.journal.map Placed.identity).map some := by
    unfold Input.journaled
    rw [List.map_map, List.map_map]
    exact List.map_congr_left fun entry hentry => input.placed entry hentry
  rw [Input.names, Disk.named, hmap, List.count_map_of_injective _ _ (Option.some_injective ℕ)]

theorem mem_released : ino ∈ input.released ↔ ∃ entry ∈ input.journal, entry.identity = ino := by
  rw [Input.released, List.mem_toFinset, List.mem_map]

theorem names_pos_iff : 0 < input.names ino ↔ ∃ entry ∈ input.journal, entry.identity = ino := by
  rw [names_eq, List.count_pos_iff, List.mem_map]

/-- There is one entry of an inode that has one name. -/
theorem names_unique {other : Placed Link Digest} (hnames : input.names ino = 1) (hentry : entry ∈ input.journal)
    (hidentity : entry.identity = ino) (hother : other ∈ input.journal) (hsame : other.identity = ino) : entry = other := by
  rw [names_eq] at hnames
  obtain ⟨before, rest, hsplit⟩ := List.append_of_mem hentry
  rw [hsplit, List.map_append, List.map_cons, List.count_append, List.count_cons, if_pos (beq_iff_eq.mpr hidentity)] at hnames
  rw [hsplit, List.mem_append, List.mem_cons] at hother
  have hnot : ∀ entries : List (Placed Link Digest), other ∈ entries → 0 < (entries.map Placed.identity).count ino := fun entries hmem =>
    List.count_pos_iff.mpr (List.mem_map.mpr ⟨other, hmem, hsame⟩)
  rcases hother with hbefore | rfl | hrest
  · have hpos := hnot before hbefore
    omega
  · rfl
  · have hpos := hnot rest hrest
    omega

theorem Done.counted_eq (h : Done input input.journal work) :
    work.kept + work.freed = ∑ ino ∈ input.released, input.names ino * input.size ino := by
  have hmap : (input.journal.map fun entry => input.size entry.identity) = (input.journal.map Placed.identity).map input.size := by
    rw [List.map_map]
    rfl
  rw [h.counted, hmap, Finset.sum_list_map_count]
  refine Finset.sum_congr rfl fun ino _ => ?_
  rw [names_eq]
  rfl

/-- The bytes of the last links are what was freed exactly where no inode has its last link left in a staging directory. -/
theorem Done.freed_iff {after : Disk Link Digest} (h : Done input input.journal work)
    (hgone : Gone input.disk (input.journaled ++ input.staged) after) :
    work.freed = ∑ ino ∈ input.released, (if after.nlink ino = 0 then input.size ino else 0) ↔
      ∀ ino ∈ input.released, input.size ino = 0 ∨ (input.leftovers ino = 0 ∨ input.disk.nlink ino ≠ input.names ino + input.leftovers ino) := by
  have hlinks : ∀ ino, input.disk.nlink ino = after.nlink ino + (input.names ino + input.leftovers ino) := fun ino => by
    rw [hgone.nlink ino, named_append]
    rfl
  have hnames : ∀ ino ∈ input.released, 0 < input.names ino := fun ino hino => names_pos_iff.mpr (mem_released.mp hino)
  rw [h.freed, Finset.sum_eq_sum_iff_of_le]
  · refine forall₂_congr fun ino hino => ?_
    have hlink := hlinks ino
    have hpos := hnames ino hino
    change (if 0 < input.names ino ∧ input.disk.nlink ino = input.names ino then _ else _) = _ ↔ _
    split_ifs <;> omega
  intro ino hino
  have hlink := hlinks ino
  change (if 0 < input.names ino ∧ input.disk.nlink ino = input.names ino then _ else _) ≤ _
  split_ifs <;> omega

section Entry

variable {after : Disk Link Digest} {receipt : Receipt Path Name Digest} {name : Name} {values : Stats} {link : Link}

omit [DecidableEq Name] in
theorem find_eq_some {path : Path} :
    disk.find lookup path name = some ino ↔ ∃ link, lookup path name = some link ∧ disk.links.get? link = some ino := Option.bind_eq_some_iff

variable {links : List Link}

section

variable (h : Gone input.disk links after)

include h

/-- A name that leads to a file when entries are gone led to it before. -/
theorem Gone.find (hfind : after.find input.lookup receipt.path name = some ino) :
    input.disk.find input.lookup receipt.path name = some ino := by
  obtain ⟨link, hlink, hget⟩ := find_eq_some.mp hfind
  rw [h.get?] at hget
  split_ifs at hget
  exact find_eq_some.mpr ⟨link, hlink, hget⟩

/-- A name whose entry stays leads to its file. -/
theorem Gone.find_of_stays (hfind : input.disk.find input.lookup receipt.path name = some ino)
    (hstays : ∀ link, input.lookup receipt.path name = some link → link ∉ links) :
    after.find input.lookup receipt.path name = some ino := by
  obtain ⟨link, hlink, hget⟩ := find_eq_some.mp hfind
  refine find_eq_some.mpr ⟨link, hlink, ?_⟩
  rw [h.get?, if_neg (hstays link hlink), hget]

/-- The entry of a name whose file still exists is not gone. -/
theorem Gone.stays
    (hexists : (after.find input.lookup receipt.path name).isSome = true) (hlink : input.lookup receipt.path name = some link) :
    link ∉ links := by
  intro hmem
  rw [Disk.find, hlink, Option.bind_some, h.get?, if_pos hmem] at hexists
  exact absurd hexists Bool.false_ne_true

/-- The stats of an inode when entries are gone. -/
theorem Gone.stats (ino : ℕ) : after.stats ino = input.statsAfter ino (input.disk.named links ino) := by
  rw [Disk.stats, h.file]
  rfl

theorem Gone.regular (ino : ℕ) : (after.file ino).regular = (input.disk.file ino).regular := by
  rw [h.file]
  rfl

theorem Gone.digest (ino : ℕ) : (after.file ino).digest = (input.disk.file ino).digest := by
  rw [h.file]
  rfl

/-- The links of an inode of which one is not gone. -/
theorem Gone.nlink_pos (hget : input.disk.links.get? link = some ino)
    (hstays : link ∉ links) : input.disk.named links ino < input.disk.nlink ino := by
  have hafter : after.links.get? link = some ino := by rw [h.get?, if_neg hstays, hget]
  have hpos : 0 < after.nlink ino := List.count_pos_iff.mpr (Dict.mem_values_iff.mpr ⟨link, hafter⟩)
  have hlinks := h.nlink ino
  omega

end

theorem statsAfter_inj {n m : ℕ} (h : input.statsAfter ino n = input.statsAfter ino m) : n = m :=
  Nat.add_left_cancel (congrArg Stats.ctime h)

/-- A current entry, read. -/
theorem current_iff :
    Current disk lookup receipt name values ↔ disk.find lookup receipt.path name = some values.ino ∧
      (disk.file values.ino).regular = true ∧ disk.stats values.ino = values ∧
        receipt.files.get? name = some (disk.file values.ino).digest := by
  constructor
  · rintro ⟨ino, hfind, hregular, hstats, hdigest⟩
    have hino : ino = values.ino := congrArg Stats.ino hstats
    subst hino
    exact ⟨hfind, hregular, hstats, hdigest⟩
  · exact fun h => ⟨values.ino, h⟩

/-- The stats of a current entry are those that its inode starts with. -/
theorem Current.values_eq (h : Current input.disk input.lookup receipt name values) : values = input.statsAfter values.ino 0 :=
  (current_iff.mp h).2.2.1.symm

variable [DecidableEq Digest] (hdone : Done input input.journal work) (hgone : Gone input.disk (input.journaled ++ input.staged) after)

include hdone

/-- Nothing was noted of an inode that is not released. -/
theorem refreshed_of_names_eq_zero (hnames : input.names values.ino = 0) :
    refreshed work.disk input.lookup work.changed false receipt name values = values := by
  by_contra hne
  obtain ⟨entry, hentry, n, hless, -⟩ := refreshed_ne hdone hne
  omega

/-- A current entry of an inode whose only name could be opened follows the unlink. -/
theorem refreshed_of_noted (hcurrent : Current input.disk input.lookup receipt name values)
    (hstays : ∀ link, input.lookup receipt.path name = some link → link ∉ input.journaled) (hentry : entry ∈ input.journal)
    (hidentity : entry.identity = values.ino) (hnames : input.names values.ino = 1) (hopens : input.opens entry.link = true)
    (hsha : entry.sha256 = (input.disk.file values.ino).digest) :
    refreshed work.disk input.lookup work.changed false receipt name values = input.statsAfter values.ino 1 := by
  obtain ⟨hfind, hregular, hstats, hdigest⟩ := current_iff.mp hcurrent
  have hafter : work.disk.find input.lookup receipt.path name = some values.ino := hdone.disk.find_of_stays hfind hstays
  have hlast : work.disk.stats values.ino = input.statsAfter values.ino 1 := by
    rw [hdone.disk.stats]
    exact congrArg _ hnames
  have hlinks : 1 < input.disk.nlink values.ino := by
    obtain ⟨link, hlink, hget⟩ := find_eq_some.mp hfind
    have hpos := hdone.disk.nlink_pos hget (hstays link hlink)
    change input.names values.ino < _ at hpos
    omega
  have hnoted := hdone.noted entry hentry (by rw [hidentity]; exact hnames) (by rw [hidentity]; exact hlinks) hopens
  rw [hidentity] at hnoted
  have hvalues : matchesBefore false values (input.statsAfter values.ino 0) = true := decide_eq_true hcurrent.values_eq
  unfold refreshed
  rw [hnoted]
  dsimp only
  rw [hvalues, hdigest, hsha, hafter]
  dsimp only
  rw [hdone.disk.regular, hregular, hlast]
  have hkey : (input.statsAfter values.ino 1).contentKey = values.contentKey := (congrArg Stats.contentKey hcurrent.values_eq).symm
  rw [if_neg (by simp), if_neg (by decide), if_neg (by simp [hkey])]

include hgone

/-- What a refresh recorded is what a file has only where the entry was current. -/
theorem not_current_of_stale (hmeasured : values.ctime ≤ (input.disk.file values.ino).ctime)
    (hstale : ¬Current input.disk input.lookup receipt name values) (hpath : kept.path = receipt.path)
    (hfiles : kept.files = receipt.files) :
    ¬Current after input.lookup kept name (refreshed work.disk input.lookup work.changed false receipt name values) := by
  intro hcurrent
  by_cases hsame : refreshed work.disk input.lookup work.changed false receipt name values = values
  · rw [hsame, current_iff, hpath, hfiles, hgone.regular, hgone.digest, hgone.stats] at hcurrent
    obtain ⟨hfind, hregular, hstats, hdigest⟩ := hcurrent
    -- The recorded change time is none that a later unlink gives.
    have hnone : input.disk.named (input.journaled ++ input.staged) values.ino = 0 := by
      have hctime : (input.disk.file values.ino).ctime + _ = values.ctime := congrArg Stats.ctime hstats
      omega
    rw [hnone] at hstats
    exact hstale (current_iff.mpr ⟨hgone.find hfind, hregular, hstats, hdigest⟩)
  obtain ⟨entry, -, n, -, -, -, hvalues, -, hfind, hnow, -⟩ := refreshed_ne hdone hsame
  have hzero : n = 0 := by
    have hctime : values.ctime = (input.disk.file values.ino).ctime + n := congrArg Stats.ctime hvalues
    omega
  rw [hzero] at hvalues
  rw [hnow, current_iff, hpath, hfiles, hgone.regular, hgone.digest] at hcurrent
  exact hstale (current_iff.mpr ⟨hdone.disk.find hfind, hcurrent.2.1, hvalues.symm, hcurrent.2.2.2⟩)

/-- A current entry whose file stays is current after the refresh exactly where nothing of its inode was unlinked, or its only
journaled name, of which the journal had the digest and the release the inode. -/
theorem current_after_iff (hcurrent : Current input.disk input.lookup receipt name values)
    (hstays : ∀ link, input.lookup receipt.path name = some link → link ∉ input.journaled ++ input.staged)
    (hpath : kept.path = receipt.path) (hfiles : kept.files = receipt.files) :
    Current after input.lookup kept name (refreshed work.disk input.lookup work.changed false receipt name values) ↔
      input.leftovers values.ino = 0 ∧ ∀ entry ∈ input.journal, entry.identity = values.ino →
        input.names values.ino = 1 ∧ input.opens entry.link = true ∧ entry.sha256 = (input.disk.file values.ino).digest := by
  obtain ⟨hfind, hregular, hstats, hdigest⟩ := current_iff.mp hcurrent
  have hlast : after.stats values.ino = input.statsAfter values.ino (input.names values.ino + input.leftovers values.ino) := by
    rw [hgone.stats, named_append]
    rfl
  have hafter := hgone.find_of_stays hfind hstays
  constructor
  · intro hnow
    by_cases hsame : refreshed work.disk input.lookup work.changed false receipt name values = values
    · have hzero : input.names values.ino + input.leftovers values.ino = 0 := by
        rw [hsame, current_iff, hlast] at hnow
        exact statsAfter_inj (hnow.2.2.1.trans hcurrent.values_eq)
      refine ⟨by omega, fun entry hentry hidentity => ?_⟩
      have hpos := names_pos_iff.mpr ⟨entry, hentry, hidentity⟩
      omega
    obtain ⟨entry, hentry, n, hless, hidentity, hopens, hvalues, hsha, -, hchanged, -⟩ := refreshed_ne hdone hsame
    have hzero : n = 0 := statsAfter_inj (hvalues.symm.trans hcurrent.values_eq)
    subst hzero
    have hone : input.names values.ino + input.leftovers values.ino = 1 := by
      rw [hchanged, current_iff, show (input.statsAfter values.ino (0 + 1)).ino = values.ino from rfl, hlast] at hnow
      exact statsAfter_inj hnow.2.2.1
    have hnames : input.names values.ino = 1 := by omega
    refine ⟨by omega, fun other hother hsame => ⟨hnames, ?_⟩⟩
    obtain rfl := names_unique hnames hentry hidentity hother hsame
    exact ⟨hopens, Option.some.inj (hsha.symm.trans hdigest)⟩
  · rintro ⟨hleft, hentries⟩
    rw [hleft] at hlast
    by_cases hreleased : ∃ entry ∈ input.journal, entry.identity = values.ino
    · obtain ⟨entry, hentry, hidentity⟩ := hreleased
      obtain ⟨hnames, hopens, hsha⟩ := hentries entry hentry hidentity
      rw [refreshed_of_noted hdone hcurrent (fun link hlink hmem => hstays link hlink (List.mem_append_left _ hmem)) hentry hidentity
        hnames hopens hsha, current_iff, hpath, hfiles]
      refine ⟨hafter, (hgone.regular _).trans hregular, ?_, ?_⟩
      · rw [hnames] at hlast
        exact hlast
      · rw [hdigest]
        exact congrArg some (hgone.digest _).symm
    · have hnames : input.names values.ino = 0 := Nat.eq_zero_of_not_pos fun hpos => hreleased (names_pos_iff.mp hpos)
      rw [refreshed_of_names_eq_zero hdone hnames, current_iff, hpath, hfiles, hgone.digest, hlast, hnames]
      exact ⟨hafter, (hgone.regular _).trans hregular, hcurrent.values_eq.symm, hdigest⟩

end Entry

section Release

variable {after : Disk Link Digest}

/-- The bytes are counted once for each inode exactly where names and links do not repeat. -/
theorem bytes_iff (hdone : Done input input.journal work) (hgone : Gone input.disk (input.journaled ++ input.staged) after) :
    (work.kept + work.freed = ∑ ino ∈ input.released, input.size ino ∧
      work.freed = ∑ ino ∈ input.released, if after.nlink ino = 0 then input.size ino else 0) ↔ ∀ ino ∈ input.released, input.size ino = 0 ∨
        input.names ino = 1 ∧ (input.leftovers ino = 0 ∨ input.disk.nlink ino ≠ 1 + input.leftovers ino) := by
  rw [hdone.counted_eq, hdone.freed_iff hgone, sum_names_iff fun ino hino => names_pos_iff.mpr (mem_released.mp hino)]
  constructor
  · rintro ⟨hcounted, hfreed⟩ ino hino
    rcases hcounted ino hino with hzero | hone
    · exact .inl hzero
    have hlast := hfreed ino hino
    rw [hone] at hlast
    exact hlast.imp_right fun hlast => ⟨hone, hlast⟩
  intro h
  refine ⟨fun ino hino => (h ino hino).imp_right And.left, fun ino hino => (h ino hino).imp_right ?_⟩
  rintro ⟨hone, hlast⟩
  rw [hone]
  exact hlast

variable [DecidableEq Digest] {receipt : Receipt Path Name Digest}

/-- What a refresh leaves of a receipt: nothing but stats of entries that were current may stop being current. -/
theorem kept_iff (hdone : Done input input.journal work) (hgone : Gone input.disk (input.journaled ++ input.staged) after)
    (hreceipt : receipt ∈ input.receipts) :
    Kept input.lookup input.disk after receipt (receipt.refresh work.disk input.lookup work.changed false) ↔
      ∀ name values, receipt.fileStats.get? name = some (some values) → Current input.disk input.lookup receipt name values →
        (∀ link, input.lookup receipt.path name = some link → link ∉ input.journaled ++ input.staged) →
          input.leftovers values.ino = 0 ∧ ∀ entry ∈ input.journal, entry.identity = values.ino →
            input.names values.ino = 1 ∧ input.opens entry.link = true ∧ entry.sha256 = (input.disk.file values.ino).digest := by
  have hget : ∀ name, (receipt.refresh work.disk input.lookup work.changed false).fileStats.get? name =
      (receipt.fileStats.get? name).map fun values => values.map (refreshed work.disk input.lookup work.changed false receipt name) :=
    fun name => Dict.get?_adjust
  have hsome : ∀ name values, receipt.fileStats.get? name = some (some values) →
      (receipt.refresh work.disk input.lookup work.changed false).fileStats.get? name =
        some (some (refreshed work.disk input.lookup work.changed false receipt name values)) := by
    intro name values hvalues
    rw [hget, hvalues]
    rfl
  constructor
  · intro h name values hvalues hcurrent hstays
    have hexists : (after.find input.lookup receipt.path name).isSome = true := by
      rw [hgone.find_of_stays (current_iff.mp hcurrent).1 hstays]
      rfl
    obtain ⟨now, hnow, hafter⟩ := h.current name values hvalues hcurrent hexists
    rw [hsome name values hvalues, Option.some.injEq, Option.some.injEq] at hnow
    subst hnow
    exact (current_after_iff hdone hgone hcurrent hstays rfl rfl).mp hafter
  intro h
  refine ⟨rfl, rfl, fun name => ?_, fun name hnone => ?_, fun name values hvalues hcurrent hexists => ?_,
    fun name values now hvalues hstale hnow => ?_⟩
  · rw [hget, Option.map_eq_none_iff]
  · rw [hget, hnone]
    rfl
  · have hstays : ∀ link, input.lookup receipt.path name = some link → link ∉ input.journaled ++ input.staged :=
      fun link hlink => hgone.stays hexists hlink
    exact ⟨_, hsome name values hvalues,
      (current_after_iff hdone hgone hcurrent hstays rfl rfl).mpr (h name values hvalues hcurrent hstays)⟩
  rw [hsome name values hvalues, Option.some.injEq, Option.some.injEq] at hnow
  subst hnow
  exact not_current_of_stale hdone hgone (input.measured receipt hreceipt name values hvalues) hstale rfl rfl

/-- A release keeps receipts current and counts each inode once exactly where released inodes are alone. -/
theorem keeps_iff_alone (input : Input Link Path Name Digest) :
    ∃ result, input.release = some result ∧ (Keeps input result ↔ Alone input) := by
  obtain ⟨work, hdone, hgone, hrelease⟩ := exists_release input
  refine ⟨_, hrelease, ?_⟩
  have hbytes := bytes_iff hdone hgone
  constructor
  · intro h
    refine ⟨hbytes.mp ⟨h.counted, h.freed⟩, fun receipt hreceipt => ?_⟩
    have hkept := (List.forall₂_map_right_iff.mp h.receipts)
    exact (kept_iff hdone hgone hreceipt).mp ((List.forall₂_same.mp hkept) receipt hreceipt)
  intro h
  have hcounted := hbytes.mpr h.bytes
  refine ⟨List.forall₂_map_right_iff.mpr (List.forall₂_same.mpr fun receipt hreceipt => ?_), hcounted.1, hcounted.2⟩
  exact (kept_iff hdone hgone hreceipt).mpr (h.recorded receipt hreceipt)

/-- Two journaled names and a name elsewhere of one inode that a current receipt records. -/
def linkedTwice : Input ℕ ℕ ℕ ℕ where
  lookup := fun _ name => some name
  opens := fun _ => true
  disk := ⟨((Dict.empty.set 0 7).set 1 7).set 2 7, fun _ => ⟨5, 0, 0, true, 1⟩⟩
  journal := [⟨0, 7, 1⟩, ⟨1, 7, 1⟩]
  staged := []
  receipts := [⟨0, Dict.empty.set 2 1, Dict.empty.set 2 (some ⟨7, 5, 0, 0⟩)⟩]
  placed := by decide
  left := fun _ hlink => nomatch hlink
  distinct := by decide
  measured := by
    intro receipt hreceipt name values hvalues
    obtain rfl := List.mem_singleton.mp hreceipt
    obtain ⟨-, hsome⟩ | ⟨-, hnone⟩ := Dict.get?_set_eq_some.mp hvalues
    · rw [Option.some.inj hsome]
    · exact absurd hnone nofun

/-- The receipt of the name elsewhere is not refreshed, and the inode is counted twice. -/
theorem linkedTwice_stale : ∃ result, linkedTwice.release = some result ∧
    ¬List.Forall₂ (Kept linkedTwice.lookup linkedTwice.disk result.disk) linkedTwice.receipts result.receipts ∧
      result.kept + result.freed ≠ ∑ ino ∈ linkedTwice.released, linkedTwice.size ino := by
  refine ⟨_, rfl, fun h => ?_, by decide⟩
  cases h with
  | cons hkept _ =>
    have hcurrent : Current linkedTwice.disk linkedTwice.lookup
        ⟨0, Dict.empty.set 2 1, Dict.empty.set 2 (some ⟨7, 5, 0, 0⟩)⟩ 2 ⟨7, 5, 0, 0⟩ := ⟨7, by decide, rfl, rfl, by decide⟩
    obtain ⟨now, hnow, hafter⟩ := hkept.current 2 ⟨7, 5, 0, 0⟩ (by decide) hcurrent (by decide)
    obtain rfl : (⟨7, 5, 0, 0⟩ : Stats) = now := Option.some.inj (Option.some.inj hnow)
    exact absurd (congrArg Stats.ctime (current_iff.mp hafter).2.2.1) (by decide)

end Release

end SparkRing.Release
