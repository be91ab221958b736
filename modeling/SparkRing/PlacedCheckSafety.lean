import SparkRing.PlacedCheck

/-!
# A placed name is removed for its content

Following every call of a check through its outcomes shows what an answer rests on. A file
that cannot be opened is refused like one of another size, so a name is removed without
anything known of its content when opening fails and the removal goes through.
-/

namespace SparkRing.PlacedCheck

open OrderedDict Placement
open Except (ok.inj ok.injEq)

variable {Name Digest : Type*} {digest : List UInt8 → Digest} {calls : Calls}
  {journal : Journal Name Digest} {name : Name} {size : ℕ} {pin : Digest} {entry : Entry Digest} {run : Run Name Digest} (failure : Failure)

/-- What the answer of a check rests on. -/
structure Careful (digest : List UInt8 → Digest) (calls : Calls) (journal : Journal Name Digest) (entry : Entry Digest)
    (size : ℕ) (pin : Digest) (run : Run Name Digest) : Prop where
  /-- Verified: the name shows the recorded inode with the recorded stats, and the recorded digest is the pin's. -/
  verified : run.answer = .ok .verified → ∃ shown, lstatAt calls.first = .ok (some shown) ∧ shown.regular = true ∧
    shown.stats.ino = entry.identity ∧ shown.stats = entry.stats ∧ entry.sha256 = pin ∧ run.Untouched journal
  /-- Hashed again: the opened file is the recorded inode, its bytes hash to the pin, and its stats did not change. -/
  rehashed : run.answer = .ok .rehashed → ∃ shown opened data after, lstatAt calls.first = .ok (some shown) ∧
    shown.stats.ino = entry.identity ∧ Opened calls entry opened ∧ opened.stats.size = size ∧
      readWhole calls.read size = .ok data ∧ data.length = size ∧ digest data = pin ∧ calls.after = .ok after ∧
        after.stats = opened.stats ∧ run.unlinked = false
  /-- Missing: the name is absent. -/
  missing : run.answer = .ok .missing → lstatAt calls.first = .ok none ∧ run.unlinked = false
  /-- Removed: the file differs from its pin, or changed while it was read. -/
  removed : run.unlinked = true ∨ run.answer = .ok .removed → Differs digest calls entry size pin
  /-- A call that fails to look at the file leaves everything as it was. -/
  failed : ∀ call error, run.answer = .error (.os call error) → call.looks = true → run.Untouched journal
  /-- So does a refusal. -/
  refused : ∀ reason, run.answer = .error (.value reason) → run.Untouched journal

/-- The name shows the recorded file, which has to be read again. -/
def Rechecks (calls : Calls) (entry : Entry Digest) (pin : Digest) : Prop :=
  ∃ current, lstatAt calls.first = .ok (some current) ∧ current.stats.ino = entry.identity ∧ current.regular = true ∧
    ¬(current.stats = entry.stats ∧ entry.sha256 = pin)

/-- The recorded file is not opened: a directory above it is no directory any more, the name shows no
regular file, opening fails, or another file is opened. -/
def NotOpened (calls : Calls) (entry : Entry Digest) : Prop :=
  openParents calls.source.directories = .error (.value .notDirectory) ∨
    openParents calls.source.directories = .ok () ∧ ∃ info, calls.source.shown = .ok info ∧
      (info.regular = false ∨ calls.opens ≠ none ∨
        ∃ opened, calls.before = .ok opened ∧ (opened.regular = false ∨ opened.stats.ino ≠ entry.identity))

/-- A removal goes through: the name shows the recorded inode and is unlinked, or it is gone and forgotten. -/
def Removes (calls : Calls) (entry : Entry Digest) : Prop :=
  calls.check = none ∧ openParents calls.again.directories = .ok () ∧
    (calls.again.shown = .error .ENOENT ∧ calls.save = none ∨
      ∃ current, calls.again.shown = .ok current ∧ current.stats.ino = entry.identity ∧ calls.unlink = none)

/-- Opening directories refuses what is no directory, and fails otherwise. -/
theorem openParents_cases (opens : List (Option Errno)) : openParents opens = .ok () ∨
    openParents opens = .error (.value .notDirectory) ∨ ∃ error, openParents opens = .error (.os .openDirectory error) := by
  induction opens with
  | nil => exact .inl rfl
  | cons result rest ih =>
    cases result with
    | none => exact ih
    | some error =>
      simp only [openParents]
      split_ifs with hlink
      · exact .inr (.inl rfl)
      · exact .inr (.inr ⟨error, rfl⟩)

/-- Opening gives the recorded file of the size, refuses one of another size or any other file, or fails. -/
theorem openSource_cases :
    (∃ opened, openSource calls entry.identity size = .ok opened ∧ Opened calls entry opened ∧ opened.stats.size = size) ∨
      (∃ opened, openSource calls entry.identity size = .error (.value .wrongSize) ∧ Opened calls entry opened ∧ opened.stats.size ≠ size) ∨
      (∃ reason, openSource calls entry.identity size = .error (.value reason) ∧ NotOpened calls entry) ∨
      ∃ call error, openSource calls entry.identity size = .error (.os call error) ∧ call.looks = true ∧ ¬NotOpened calls entry := by
  unfold openSource NotOpened
  rcases openParents_cases calls.source.directories with hdirs | hdirs | ⟨error, hdirs⟩
  case inr.inl => exact .inr (.inr (.inl ⟨_, by rw [hdirs], .inl hdirs⟩))
  case inr.inr => exact .inr (.inr (.inr ⟨_, _, by rw [hdirs], rfl, by simp [hdirs]⟩))
  case inl =>
    simp only [hdirs]
    cases hshown : calls.source.shown with
    | error => exact .inr (.inr (.inr ⟨_, _, rfl, rfl, by simp⟩))
    | ok info =>
      by_cases hregular : info.regular = false
      · exact .inr (.inr (.inl ⟨.notRegular, by simp [hregular], .inr ⟨trivial, info, rfl, .inl hregular⟩⟩))
      simp only [if_neg hregular]
      cases hopens : calls.opens with
      | some => exact .inr (.inr (.inl ⟨_, rfl, .inr ⟨trivial, info, rfl, .inr (.inl nofun)⟩⟩))
      | none =>
        cases hbefore : calls.before with
        | error => exact .inr (.inr (.inr ⟨_, _, rfl, rfl, by simp [hregular]⟩))
        | ok opened =>
          by_cases hplain : opened.regular = false
          · exact .inr (.inr (.inl ⟨.notRegular, by simp [hplain],
              .inr ⟨trivial, info, rfl, .inr (.inr ⟨opened, rfl, .inl hplain⟩)⟩⟩))
          by_cases hinode : opened.stats.ino ≠ entry.identity
          · exact .inr (.inr (.inl ⟨.otherFile, by simp [hplain, hinode],
              .inr ⟨trivial, info, rfl, .inr (.inr ⟨opened, rfl, .inr hinode⟩)⟩⟩))
          have hopened : Opened calls entry opened :=
            ⟨hdirs, ⟨info, hshown, Bool.eq_true_of_not_eq_false hregular⟩, hopens, hbefore,
              Bool.eq_true_of_not_eq_false hplain, not_not.mp hinode⟩
          simp only [if_neg hplain, if_neg hinode]
          by_cases hsize : opened.stats.size = size
          · exact .inl ⟨opened, by rw [if_neg (not_not.mpr hsize)], hopened, hsize⟩
          · exact .inr (.inl ⟨opened, by rw [if_pos hsize], hopened, hsize⟩)

/-- The recorded file is opened or not. -/
theorem Opened.not_notOpened {opened : Shown} (h : Opened calls entry opened) : ¬NotOpened calls entry := by
  obtain ⟨info, hinfo, hregular⟩ := h.named
  rintro (hdirs | ⟨-, info', hinfo', hbad⟩)
  · rw [h.directories] at hdirs
    cases hdirs
  rw [hinfo, ok.injEq] at hinfo'
  subst hinfo'
  rcases hbad with hbad | hbad | ⟨opened', hbefore, hbad⟩
  · rw [hregular] at hbad
    cases hbad
  · exact hbad h.opens
  rw [h.before, ok.injEq] at hbefore
  subst hbefore
  rcases hbad with hbad | hbad
  · rw [h.regular] at hbad
    cases hbad
  · exact hbad h.inode

/-- Blocks are read up to the size, or the file ends before. -/
theorem readBlocks_cases (read : ℕ → Except Errno (List UInt8)) (size turns : ℕ) (data : List UInt8)
    (hle : data.length ≤ size) (hturns : size ≤ data.length + turns) :
    (∃ whole, readBlocks read size turns data = .ok whole ∧ whole.length = size) ∨
      (∃ count < size, readBlocks read size turns data = .error (.value (.ended count))) ∨
      ∃ error, readBlocks read size turns data = .error (.os .read error) := by
  induction turns generalizing data with
  | zero => exact .inl ⟨data, rfl, by omega⟩
  | succ turns ih =>
    rw [readBlocks]
    split_ifs with hmore
    · cases read data.length with
      | error error => exact .inr (.inr ⟨error, rfl⟩)
      | ok answer =>
        by_cases hempty : answer.take (min BLOCK (size - data.length)) = []
        · exact .inr (.inl ⟨data.length, hmore, if_pos hempty⟩)
        have hpos := List.length_pos_iff.mpr hempty
        have hmost : (answer.take (min BLOCK (size - data.length))).length ≤ size - data.length :=
          (List.length_take_le _ _).trans (min_le_right _ _)
        simp only [if_neg hempty]
        refine ih _ ?_ ?_
        · rw [List.length_append]
          omega
        · rw [List.length_append]
          omega
    · exact .inl ⟨data, rfl, by omega⟩

/-- The whole file of the size is read, the reads show another size, or a read fails. -/
theorem readWhole_cases (read : ℕ → Except Errno (List UInt8)) : (∃ data, readWhole read size = .ok data ∧ data.length = size) ∨
      (∃ count < size, readWhole read size = .error (.value (.ended count))) ∨
      readWhole read size = .error (.value .holdsMore) ∨ ∃ error, readWhole read size = .error (.os .read error) := by
  unfold readWhole
  rcases readBlocks_cases read size size [] (Nat.zero_le _) (by simp) with ⟨data, hdata, hlength⟩ | ⟨count, hlt, hdata⟩ | ⟨error, hdata⟩
  · rw [hdata]
    simp only
    cases read size with
    | error error => exact .inr (.inr (.inr ⟨error, rfl⟩))
    | ok answer =>
      by_cases hempty : answer.take 1 = []
      · exact .inl ⟨data, if_pos hempty, hlength⟩
      · exact .inr (.inr (.inl (if_neg hempty)))
  · exact .inr (.inl ⟨count, hlt, by rw [hdata]⟩)
  · exact .inr (.inr (.inr ⟨error, by rw [hdata]⟩))

/-- A check that raises has changed nothing. -/
theorem Careful.raise : Careful digest calls journal entry size pin (Run.raise journal failure) where
  verified := nofun
  rehashed := nofun
  missing := nofun
  removed hgone := by rcases hgone with hgone | hgone <;> cases hgone
  failed _ _ _ _ := ⟨rfl, rfl, rfl⟩
  refused _ _ := ⟨rfl, rfl, rfl⟩

/-- How writing the journal ends. -/
theorem save_cases (unlinked : Bool) (changed : Journal Name Digest) (answer : Answer) :
    (calls.save = none ∧ (Run.save calls unlinked journal changed answer).answer = .ok answer ∨
      calls.save ≠ none ∧ ∃ error, (Run.save calls unlinked journal changed answer).answer = .error (.os .save error)) ∧
      (Run.save calls unlinked journal changed answer).unlinked = unlinked := by
  unfold Run.save
  cases calls.save with
  | none => exact ⟨.inl ⟨rfl, rfl⟩, rfl⟩
  | some failed => exact ⟨.inr ⟨nofun, failed.1, rfl⟩, rfl⟩

/-- A check that ends with writing the journal, without a removal. -/
theorem Careful.saved {answer : Answer}
    (hends : calls.save = none ∧ run.answer = .ok answer ∨ calls.save ≠ none ∧ ∃ error, run.answer = .error (.os .save error))
    (hunlinked : run.unlinked = false) (hverified : answer ≠ .verified) (hremoved : answer ≠ .removed)
    (hrehashed : answer = .rehashed → ∃ shown opened data after, lstatAt calls.first = .ok (some shown) ∧
      shown.stats.ino = entry.identity ∧ Opened calls entry opened ∧ opened.stats.size = size ∧
        readWhole calls.read size = .ok data ∧ data.length = size ∧ digest data = pin ∧ calls.after = .ok after ∧
          after.stats = opened.stats) (hmissing : answer = .missing → lstatAt calls.first = .ok none) :
    Careful digest calls journal entry size pin run := by
  rcases hends with ⟨-, hanswer⟩ | ⟨-, error, hanswer⟩
  · exact
      { verified := fun h => absurd (ok.inj (hanswer.symm.trans h)) hverified
        rehashed := fun h => by
          obtain ⟨shown, opened, data, after, hshown, hinode, hopened, hsize, hdata, hlength, hdigest, hafter, hstats⟩ :=
            hrehashed (ok.inj (hanswer.symm.trans h))
          exact ⟨shown, opened, data, after, hshown, hinode, hopened, hsize, hdata, hlength, hdigest, hafter, hstats, hunlinked⟩
        missing := fun h => ⟨hmissing (ok.inj (hanswer.symm.trans h)), hunlinked⟩
        removed := fun hgone => by
          rcases hgone with hgone | hgone
          · exact absurd (hunlinked.symm.trans hgone) nofun
          · exact absurd (ok.inj (hanswer.symm.trans hgone)) hremoved
        failed := fun call error h _ => nomatch hanswer.symm.trans h
        refused := fun reason h => nomatch hanswer.symm.trans h }
  · exact
      { verified := fun h => nomatch hanswer.symm.trans h
        rehashed := fun h => nomatch hanswer.symm.trans h
        missing := fun h => nomatch hanswer.symm.trans h
        removed := fun hgone => by
          rcases hgone with hgone | hgone
          · exact absurd (hunlinked.symm.trans hgone) nofun
          · exact nomatch hanswer.symm.trans hgone
        failed := fun call error h hlooks => by
          cases hanswer.symm.trans h
          cases hlooks
        refused := fun reason h => nomatch hanswer.symm.trans h }

/-- What a removal leaves. -/
structure Removal (calls : Calls) (journal : Journal Name Digest) (entry : Entry Digest) (run : Run Name Digest) : Prop where
  /-- It answers nothing else. -/
  answers : ∀ answer, run.answer = .ok answer → answer = .removed
  /-- It goes through under these conditions only. -/
  removes : run.unlinked = true ∨ run.answer = .ok .removed ↔ Removes calls entry
  /-- A call that fails to look at the file leaves everything as it was. -/
  failed : ∀ call error, run.answer = .error (.os call error) → call.looks = true → run.Untouched journal
  /-- So does a refusal. -/
  refused : ∀ reason, run.answer = .error (.value reason) → run.Untouched journal

/-- A removal that raises before it has changed anything. -/
theorem Removal.raise (h : ¬Removes calls entry) : Removal calls journal entry (Run.raise journal failure) where
  answers := nofun
  removes := ⟨fun hgone => hgone.elim nofun nofun, fun hr => absurd hr h⟩
  failed _ _ _ _ := ⟨rfl, rfl, rfl⟩
  refused _ _ := ⟨rfl, rfl, rfl⟩

/-- A check that ends in a removal is careful when the removal does not go through or the file differs. -/
theorem Removal.careful_iff (h : Removal calls journal entry run) :
    Careful digest calls journal entry size pin run ↔ (Removes calls entry → Differs digest calls entry size pin) := by
  constructor
  · intro hc hr
    exact hc.removed (h.removes.mpr hr)
  intro hd
  exact
    { verified := fun ha => nomatch h.answers _ ha
      rehashed := fun ha => nomatch h.answers _ ha
      missing := fun ha => nomatch h.answers _ ha
      removed := fun ha => hd (h.removes.mp ha)
      failed := h.failed
      refused := h.refused }

section

variable [DecidableEq Name]

theorem removal_unlinkPlaced : Removal calls journal entry (unlinkPlaced calls journal name entry) := by
  unfold unlinkPlaced
  cases hcheck : calls.check with
  | some => exact .raise _ fun h => nomatch hcheck.symm.trans h.1
  | none =>
    cases hdirs : openParents calls.again.directories with
    | error => exact .raise _ fun h => nomatch hdirs.symm.trans h.2.1
    | ok =>
      cases hshown : calls.again.shown with
      | error error =>
        by_cases habsent : error = .ENOENT
        · subst habsent
          obtain ⟨hends, hunlinked⟩ := save_cases false (journal.drop name) .removed
          have hremoves : Removes calls entry ↔ calls.save = none := by
            simp [Removes, hcheck, hdirs, hshown]
          simp only
          rcases hends with ⟨hsaved, hanswer⟩ | ⟨hsaved, error, hanswer⟩
          · exact
              { answers := fun answer h => (ok.inj (hanswer.symm.trans h)).symm
                removes := ⟨fun _ => hremoves.mpr hsaved, fun _ => .inr hanswer⟩
                failed := fun call error h _ => nomatch hanswer.symm.trans h
                refused := fun reason h => nomatch hanswer.symm.trans h }
          exact
            { answers := fun answer h => nomatch hanswer.symm.trans h
              removes := by simp [hunlinked, hanswer, hremoves, hsaved]
              failed := fun call error h hlooks => by
                cases hanswer.symm.trans h
                cases hlooks
              refused := fun reason h => nomatch hanswer.symm.trans h }
        · have hnot : ¬Removes calls entry := by simp [Removes, hshown, habsent]
          cases error with
          | ENOENT => exact absurd rfl habsent
          | ELOOP | ENOTDIR | other => exact .raise _ hnot
      | ok current =>
        simp only
        split_ifs with hforeign
        · exact .raise _ (by simp [Removes, hshown, hforeign])
        rw [not_not] at hforeign
        cases hunlink : calls.unlink with
        | some => exact .raise _ (by simp [Removes, hshown, hunlink])
        | none =>
          have hremoves : Removes calls entry := ⟨hcheck, hdirs, .inr ⟨current, hshown, hforeign, hunlink⟩⟩
          cases hsync : calls.sync with
          | some error =>
            exact
              { answers := nofun
                removes := ⟨fun _ => hremoves, fun _ => .inl rfl⟩
                failed := fun call error h hlooks => by
                  cases h
                  cases hlooks
                refused := nofun }
          | none =>
            obtain ⟨hends, hunlinked⟩ := save_cases true (journal.drop name) .removed
            simp only
            rcases hends with ⟨-, hanswer⟩ | ⟨-, error, hanswer⟩
            · exact
                { answers := fun answer h => (ok.inj (hanswer.symm.trans h)).symm
                  removes := ⟨fun _ => hremoves, fun _ => .inl hunlinked⟩
                  failed := fun call error h _ => nomatch hanswer.symm.trans h
                  refused := fun reason h => nomatch hanswer.symm.trans h }
            exact
              { answers := fun answer h => nomatch hanswer.symm.trans h
                removes := ⟨fun _ => hremoves, fun _ => .inl hunlinked⟩
                failed := fun call error h hlooks => by
                  cases hanswer.symm.trans h
                  cases hlooks
                refused := fun reason h => nomatch hanswer.symm.trans h }

variable [DecidableEq Digest]

/-- A check of a placed name is careful unless the file has to be read again, is not opened, and the
name is removed all the same. -/
theorem removes_only_for_content (hentry : journal.files.get? name = some entry) (hplaced : entry.state = .placed) :
    Careful digest calls journal entry size pin (checkPlaced digest calls journal name size pin) ↔
      ¬(Rechecks calls entry pin ∧ NotOpened calls entry ∧ Removes calls entry) := by
  unfold checkPlaced
  rw [hentry]
  simp only
  rw [if_neg (not_not.mpr hplaced)]
  cases hfirst : lstatAt calls.first with
  | error => exact iff_of_true (.raise _) (by simp [Rechecks, hfirst])
  | ok shown =>
    cases shown with
    | none =>
      refine iff_of_true ?_ (by simp [Rechecks, hfirst])
      obtain ⟨hends, hunlinked⟩ := save_cases false (journal.drop name) .missing
      exact .saved hends hunlinked nofun nofun nofun (fun _ => hfirst)
    | some current =>
      simp only
      by_cases hforeign : current.stats.ino ≠ entry.identity ∨ current.regular = false
      · rw [if_pos hforeign]
        refine iff_of_true (.raise _) ?_
        rintro ⟨⟨shown, hshown, hinode, hregular, -⟩, -⟩
        rw [hfirst] at hshown
        cases hshown
        rcases hforeign with hforeign | hforeign
        · exact hforeign hinode
        · rw [hregular] at hforeign
          cases hforeign
      rw [if_neg hforeign]
      obtain ⟨hinode, hregular⟩ := not_or.mp hforeign
      rw [not_not] at hinode
      rw [Bool.not_eq_false] at hregular
      split_ifs with hsame
      · refine iff_of_true ?_ ?_
        · exact
            { verified := fun _ => ⟨current, hfirst, hregular, hinode, hsame.1, hsame.2, rfl, rfl, rfl⟩
              rehashed := nofun
              missing := nofun
              removed := fun hgone => by rcases hgone with hgone | hgone <;> cases hgone
              failed := nofun
              refused := nofun }
        rintro ⟨⟨shown, hshown, -, -, hchanged⟩, -⟩
        rw [hfirst] at hshown
        cases hshown
        exact hchanged hsame
      have hrechecks : Rechecks calls entry pin := ⟨current, hfirst, hinode, hregular, hsame⟩
      have hremoval : Removal calls journal entry (unlinkPlaced calls journal name entry) := removal_unlinkPlaced
      rcases openSource_cases with ⟨opened, hopen, hopened, hsize⟩ | ⟨opened, hopen, hopened, hsize⟩ |
        ⟨reason, hopen, hnot⟩ | ⟨call, error, hopen, -, hnot⟩
      · -- the file is opened, and read
        rw [hopen]
        have hright : ¬(Rechecks calls entry pin ∧ NotOpened calls entry ∧ Removes calls entry) :=
          fun h => hopened.not_notOpened h.2.1
        refine iff_of_true ?_ hright
        simp only
        rcases readWhole_cases calls.read with ⟨data, hdata, hlength⟩ | ⟨count, hlt, hdata⟩ | hdata | ⟨error, hdata⟩
        · rw [hdata]
          cases hafter : calls.after with
          | error => exact .raise _
          | ok after =>
            simp only
            split_ifs with hmatch
            · obtain ⟨hends, hunlinked⟩ := save_cases false
                { journal with files := journal.files.set name { entry with sha256 := pin, stats := after.stats } } .rehashed
              exact .saved hends hunlinked nofun nofun
                (fun _ => ⟨current, opened, data, after, hfirst, hinode, hopened, hsize, hdata, hlength, hmatch.1, hafter,
                  hmatch.2⟩) nofun
            refine hremoval.careful_iff.mpr fun _ => ⟨opened, hopened, .inr (.inr (.inr ⟨data, after, hdata, hafter, ?_⟩))⟩
            by_cases hdigest : digest data = pin
            · exact .inr fun hstats => hmatch ⟨hdigest, hstats⟩
            · exact .inl hdigest
        · rw [hdata]
          exact hremoval.careful_iff.mpr fun _ => ⟨opened, hopened, .inr (.inl ⟨count, hlt, hdata⟩)⟩
        · rw [hdata]
          exact hremoval.careful_iff.mpr fun _ => ⟨opened, hopened, .inr (.inr (.inl hdata))⟩
        · rw [hdata]
          exact .raise _
      · -- the file has another size
        rw [hopen]
        refine iff_of_true ?_ fun h => hopened.not_notOpened h.2.1
        exact hremoval.careful_iff.mpr fun _ => ⟨opened, hopened, .inl hsize⟩
      · -- the file is not opened: nothing is known of its content
        rw [hopen]
        have hunknown : ¬Differs digest calls entry size pin := fun ⟨opened, hopened, _⟩ => hopened.not_notOpened hnot
        rw [hremoval.careful_iff]
        constructor
        · intro hd h
          exact hunknown (hd h.2.2)
        · intro h hr
          exact absurd ⟨hrechecks, hnot, hr⟩ h
      · -- a call failed
        rw [hopen]
        exact iff_of_true (.raise _) fun h => hnot h.2.1

/-- The stats of a small file whose change time moved. -/
def movedStats : Stats := ⟨7, 3, 5, 9⟩

/-- A journal with the file as it was placed. -/
def placedJournal : Journal ℕ (List UInt8) :=
  ⟨Dict.empty.set 0 ⟨.placed, 7, [1, 2, 3], ⟨7, 3, 5, 8⟩, .link⟩, ∅⟩

/-- Every call works and shows the file with its pinned bytes; opening it ends as told. -/
def movedCalls (opens : Option Errno) : Calls where
  first := ⟨[none], .ok ⟨movedStats, true⟩⟩
  source := ⟨[none], .ok ⟨movedStats, true⟩⟩
  opens := opens
  before := .ok ⟨movedStats, true⟩
  read offset := .ok (([1, 2, 3] : List UInt8).drop offset)
  after := .ok ⟨movedStats, true⟩
  check := none
  again := ⟨[none], .ok ⟨movedStats, true⟩⟩
  unlink := none
  sync := none
  save := none

/-- The file is hashed again when it can be opened. -/
theorem rehashes_moved_file :
    (checkPlaced id (movedCalls none) placedJournal 0 3 [1, 2, 3]).answer = .ok .rehashed ∧
      Careful id (movedCalls none) placedJournal ⟨.placed, 7, [1, 2, 3], ⟨7, 3, 5, 8⟩, .link⟩ 3 [1, 2, 3]
        (checkPlaced id (movedCalls none) placedJournal 0 3 [1, 2, 3]) := by
  refine ⟨by decide +kernel, (removes_only_for_content rfl rfl).mpr ?_⟩
  rintro ⟨-, hnot, -⟩
  simp [NotOpened, movedCalls, openParents, movedStats] at hnot

/-- The same file is removed when too many files are open, though its bytes are the pinned ones. -/
theorem removes_unopened_file :
    (checkPlaced id (movedCalls (some (.other 24))) placedJournal 0 3 [1, 2, 3]).unlinked = true ∧
      readWhole (movedCalls (some (.other 24))).read 3 = .ok [1, 2, 3] ∧
      ¬Careful id (movedCalls (some (.other 24))) placedJournal ⟨.placed, 7, [1, 2, 3], ⟨7, 3, 5, 8⟩, .link⟩ 3 [1, 2, 3]
        (checkPlaced id (movedCalls (some (.other 24))) placedJournal 0 3 [1, 2, 3]) := by
  have hgone : (checkPlaced id (movedCalls (some (.other 24))) placedJournal 0 3 [1, 2, 3]).unlinked = true := by
    decide +kernel
  refine ⟨hgone, by decide +kernel, fun hc => ?_⟩
  obtain ⟨opened, hopened, -⟩ := hc.removed (.inl hgone)
  cases hopened.opens

end

end SparkRing.PlacedCheck
