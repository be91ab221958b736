import SparkRing.TeardownTracking

/-!
# Engines over whole runs

What holds in every state of a process: each engine knows its kernels, those in quarantine are
listed once, and no part was released that is still held.
-/

namespace SparkRing.EngineTeardown

open StreamOrder (Item Streams)
open Process (put_engines)

variable {contextOf : ℕ → ℕ} {p p' : Process} {a b : ℕ} {e e' : Engine} {s : Streams ℕ Work} {answers : ℕ → ℕ → Bool} {o : Origin}

/-- How often a part of an engine is still to be released. -/
def Engine.unreleased (e : Engine) (part : Part) : ℕ := if part = .record ∧ e.status = .freed then 0 else e.held part

theorem Engine.unreleased_eq {part : Part} (h : e.status ≠ .freed) : e.unreleased part = e.held part := if_neg fun hfreed => h hfreed.2

theorem Engine.unreleased_gone (e : Engine) (part : Part) : e.gone.unreleased part = 0 := by cases part <;> rfl

theorem Engine.unreleased_le (e : Engine) (part : Part) : e.unreleased part ≤ 1 := by
  unfold unreleased
  split_ifs
  · exact Nat.zero_le 1
  · exact e.held_le part

/-- What holds in every state of a process. -/
structure Inv (contextOf : ℕ → ℕ) (p : Process) : Prop where
  sound : p.streams.Sound
  /-- A kernel's engine was created. -/
  made : ∀ a t i o, KernelAt p.streams a t i o → p.engines a ≠ none
  knows : ∀ a e, p.engines a = some e → Knows contextOf a e p.streams
  channels : ∀ a e, p.engines a = some e → ChannelContext contextOf e
  listed : ∀ a, a ∈ p.quarantined ↔ ∃ e, p.engines a = some e ∧ e.status = .quarantined
  nodup : p.quarantined.Nodup
  /-- No verbs object is left of an engine whose memory may still go. -/
  clean : ∀ a e, p.engines a = some e → e.status = .live ∨ e.status = .quarantined → ∀ part, e.left part = 0
  /-- What is held was not released, and nothing was released twice. -/
  counted : ∀ a e, p.engines a = some e → ∀ part, p.released a part + e.unreleased part ≤ 1
  unmade : ∀ a, p.engines a = none → ∀ part, p.released a part = 0

theorem Inv.start : Inv contextOf Process.start where
  sound := .empty
  made _ _ _ _ h := nomatch h
  knows _ _ h := nomatch h
  channels _ _ h := nomatch h
  listed _ := ⟨nofun, fun ⟨_, h, _⟩ => nomatch h⟩
  nodup := .nil
  clean _ _ h := nomatch h
  counted _ _ h := nomatch h
  unmade _ _ _ := rfl

section

variable (h : Inv contextOf p)

include h

theorem Inv.once (a : ℕ) (part : Part) : p.released a part ≤ 1 := by
  cases he : p.engines a with
  | none => exact (h.unmade a he part).trans_le (Nat.zero_le 1)
  | some e => exact (Nat.le_add_right _ _).trans (h.counted a e he part)

/-- A step that leaves every engine as it was, whose new kernels are known. -/
theorem Inv.streams (hgrow : p.streams.Grows s) (hsound : s.Sound)
    (hnew : ∀ a t i o, KernelAt s a t i o → KernelAt p.streams a t i o ∨ ∃ e, p.engines a = some e ∧ Known contextOf s e t i o) :
    Inv contextOf { p with streams := s } := { h with
  sound := hsound
  made a t i o hat := by
    rcases hnew a t i o hat with hold | ⟨e, he, -⟩
    · exact h.made a t i o hold
    · rw [he]
      exact nofun
  knows a e he t i o hat := by
    rcases hnew a t i o hat with hold | ⟨e', he', hknown⟩
    · exact (h.knows a e he t i o hold).mono hgrow
    · cases he.symm.trans he'
      exact hknown }

theorem Inv.advances (he : p.engines a = some e) (hlive : e.status = .live)
    (hstep : Advances contextOf a e p.streams e' s) : Inv contextOf { p.put a e' with streams := s } := { h with
  sound := hstep.sound h.sound
  made b t i o hat := by
    rw [put_engines]
    split_ifs with hb
    · exact nofun
    · exact h.made b t i o (hstep.others b hb t i o hat)
  knows b f hf t i o hat := by
    rw [put_engines] at hf
    split_ifs at hf with hb
    · subst hb
      cases hf
      exact hstep.knows hlive (h.channels b e he) (h.knows b e he) t i o hat
    · exact (h.knows b f hf t i o (hstep.others b hb t i o hat)).mono hstep.grows
  channels b f hf := by
    rw [put_engines] at hf
    split_ifs at hf with hb
    · cases hf
      exact hstep.channels (h.channels a e he)
    · exact h.channels b f hf
  listed b := by
    change b ∈ p.quarantined ↔ ∃ f, (p.put a e').engines b = some f ∧ f.status = .quarantined
    rw [h.listed, put_engines]
    split_ifs with hb
    · subst hb
      rw [he]
      constructor
      · rintro ⟨f, hf, hqueued⟩
        cases hf
        exact absurd (hlive.symm.trans hqueued) nofun
      rintro ⟨f, hf, hqueued⟩
      cases hf
      exact absurd ((hstep.status.trans hlive).symm.trans hqueued) nofun
    · rfl
  clean b f hf hwhere part := by
    rw [put_engines] at hf
    split_ifs at hf with hb
    · cases hf
      have hleft := h.clean a e he (Or.inl hlive) part
      cases part
      · exact hstep.survivors.trans hleft
      · exact hstep.p2pSurvivors.trans hleft
      · exact hstep.survivors.trans hleft
    · exact h.clean b f hf hwhere part
  counted b f hf part := by
    rw [put_engines] at hf
    split_ifs at hf with hb
    · subst hb
      cases hf
      have hheld : e'.held part = e.held part := by
        cases part
        · change (if e'.core = true then 1 else 0) = _
          rw [hstep.core]
          rfl
        · change (if e'.channelMemory = true then 1 else 0) = _
          rw [hstep.channelMemory]
          rfl
        · rfl
      rw [Engine.unreleased, hheld, hstep.status]
      exact h.counted b e he part
    · exact h.counted b f hf part
  unmade b hb := by
    rw [put_engines] at hb
    split_ifs at hb with hba
    exact h.unmade b hb }

/-- A context's end changes no engine. -/
theorem Inv.destroyContext (gone : ℕ → Bool) : Inv contextOf { p with gone } :=
  ⟨h.sound, h.made, h.knows, h.channels, h.listed, h.nodup, h.clean, h.counted, h.unmade⟩

omit h in
/-- An engine whose memory went knows its kernels still. -/
theorem Known.gone {t i : ℕ} (h : Known contextOf s e t i o) : Known contextOf s e.gone t i o := { h with
  failures hlive := nomatch hlive
  last hlive := nomatch hlive
  channel hlive := nomatch hlive
  queued hqueued := nomatch hqueued }

/-- A reclaim keeps the invariant. -/
theorem Inv.reclaim (answers : ℕ → ℕ → Bool) : Inv contextOf (p.quarantineReclaim answers) := by
  obtain ⟨hstreams, hgone, hquarantined, hengines, hreleased⟩ := Process.quarantineReclaim_spec h.nodup answers
  -- An engine after the reclaim is one that stays, or one of the quarantine that went.
  have hafter : ∀ b f, (p.quarantineReclaim answers).engines b = some f →
      b ∉ p.reclaimed answers ∧ p.engines b = some f ∨ b ∈ p.reclaimed answers ∧ ∃ e, p.engines b = some e ∧ f = e.gone := by
    intro b f hf
    rw [hengines] at hf
    split_ifs at hf with hb
    · obtain ⟨e, he, rfl⟩ := Option.map_eq_some_iff.mp hf
      exact Or.inr ⟨hb, e, he, rfl⟩
    · exact Or.inl ⟨hb, hf⟩
  refine ⟨hstreams ▸ h.sound, fun b t i o hat => ?_, fun b f hf => ?_, fun b f hf => ?_, fun b => ?_, ?_, fun b f hf hwhere => ?_, fun b f hf part => ?_,
    fun b hb part => ?_⟩
  · rw [hstreams] at hat
    rw [hengines]
    have hmade := h.made b t i o hat
    split_ifs
    · exact fun hnone => hmade (Option.map_eq_none_iff.mp hnone)
    · exact hmade
  · rw [hstreams]
    rcases hafter b f hf with ⟨-, hold⟩ | ⟨-, e, he, rfl⟩
    · exact h.knows b f hold
    · exact fun t i o hat => (h.knows b e he t i o hat).gone
  · rcases hafter b f hf with ⟨-, hold⟩ | ⟨-, e, he, rfl⟩
    · exact h.channels b f hold
    intro send peer c hc
    change (if e.channelMemory = true then fun _ _ => none else e.channel) send peer = some c at hc
    split_ifs at hc
    exact h.channels b e he send peer c hc
  · rw [hquarantined, List.mem_filter, h.listed]
    constructor
    · rintro ⟨⟨e, he, hqueued⟩, hstays⟩
      refine ⟨e, ?_, hqueued⟩
      rw [hengines, if_neg, he]
      intro hfreed
      rw [(List.mem_filter.mp hfreed).2] at hstays
      cases hstays
    rintro ⟨f, hf, hqueued⟩
    rcases hafter b f hf with ⟨hnot, hold⟩ | ⟨-, e, -, rfl⟩
    · refine ⟨⟨f, hold, hqueued⟩, Bool.not_eq_true' _ ▸ Bool.eq_false_iff.mpr fun hgoes => hnot ?_⟩
      exact List.mem_filter.mpr ⟨(h.listed b).mpr ⟨f, hold, hqueued⟩, hgoes⟩
    · cases hqueued
  · exact h.nodup.filter _
  · rcases hafter b f hf with ⟨-, hold⟩ | ⟨-, e, -, rfl⟩
    · exact h.clean b f hold hwhere
    rcases hwhere with hwhere | hwhere
    · cases hwhere
    · cases hwhere
  · rw [hreleased]
    rcases hafter b f hf with ⟨hnot, hold⟩ | ⟨hgoes, e, he, rfl⟩
    · rw [if_neg hnot]
      exact h.counted b f hold part
    obtain ⟨f, hf, hqueued⟩ := (h.listed b).mp (List.mem_filter.mp hgoes).1
    cases he.symm.trans hf
    rw [if_pos hgoes, he]
    rw [Engine.unreleased_gone, Nat.add_zero]
    change p.released b part + e.held part ≤ 1
    rw [← Engine.unreleased_eq (hqueued.trans_ne nofun)]
    exact h.counted b e he part
  · rw [hreleased]
    rw [hengines] at hb
    split_ifs at hb with hmember
    · rw [if_pos hmember, Option.map_eq_none_iff.mp hb]
      exact h.unmade b (Option.map_eq_none_iff.mp hb) part
    · rw [if_neg hmember]
      exact h.unmade b hb part

/-- An engine outside the quarantine is not touched by a reclaim. -/
theorem Inv.reclaim_engine (answers : ℕ → ℕ → Bool) (hstatus : ∀ e, p.engines a = some e → e.status ≠ .quarantined) :
    (p.quarantineReclaim answers).engines a = p.engines a := by
  obtain ⟨-, -, -, hengines, -⟩ := Process.quarantineReclaim_spec h.nodup answers
  rw [hengines, if_neg]
  intro hgoes
  obtain ⟨e, he, hqueued⟩ := (h.listed a).mp (List.mem_filter.mp hgoes).1
  exact hstatus e he hqueued

/-- A new engine has no kernels and holds its memory. -/
theorem Inv.create (hnone : p.engines a = none) (world context : ℕ) (p2p : Bool) :
    Inv contextOf (p.put a (Engine.new world context p2p)) := { h with
  made b t i o hat := by
    rw [put_engines]
    split_ifs
    · exact nofun
    · exact h.made b t i o hat
  knows b f hf t i o hat := by
    rw [put_engines] at hf
    split_ifs at hf with hb
    · exact absurd (hb ▸ hnone) (h.made b t i o hat)
    · exact h.knows b f hf t i o hat
  channels b f hf := by
    rw [put_engines] at hf
    split_ifs at hf
    · cases hf
      exact fun _ _ _ hc => nomatch hc
    · exact h.channels b f hf
  listed b := by
    rw [put_engines]
    change b ∈ p.quarantined ↔ _
    rw [h.listed]
    split_ifs with hb
    · rw [hb, hnone]
      exact ⟨nofun, fun ⟨f, hf, hqueued⟩ => by cases hf; cases hqueued⟩
    · rfl
  clean b f hf hwhere part := by
    rw [put_engines] at hf
    split_ifs at hf
    · cases hf
      cases part <;> rfl
    · exact h.clean b f hf hwhere part
  counted b f hf part := by
    change p.released b part + _ ≤ 1
    rw [put_engines] at hf
    split_ifs at hf with hb
    · cases hf
      rw [h.unmade b (hb ▸ hnone), Nat.zero_add]
      exact Engine.unreleased_le _ part
    · exact h.counted b f hf part
  unmade b hb := by
    rw [put_engines] at hb
    split_ifs at hb
    exact h.unmade b hb }

omit h in
/-- An engine that waits in quarantine has an event behind every kernel that it remembered. -/
theorem Known.destroyed {t i : ℕ} (h : Known contextOf s e t i o) (hat : KernelAt s a t i o) (hlive : e.status = .live)
    (hcontext : e'.context = e.context) (hstatus : e'.status ≠ .live)
    (hwaits : e'.status = .quarantined → e'.quarantineDone = e.streams.map (fun t => (t, (s.items t).length)) ∧ e'.failures = e.failures) :
    Known contextOf s e' t i o where
  context := h.context.trans hcontext.symm
  failures hlive' := absurd hlive' hstatus
  last hlive' := absurd hlive' hstatus
  channel hlive' := absurd hlive' hstatus
  queued hqueued ho := by
    obtain ⟨hdone, hfailures⟩ := hwaits hqueued
    rw [hdone]
    cases o with
    | eager =>
      obtain ⟨hlast, hbehind⟩ := h.last hlive (congrArg Origin.eager (Eq.trans ho hfailures))
      refine ⟨(e.lastStream, (s.items e.lastStream).length), List.mem_map.mpr ⟨e.lastStream, ?_, rfl⟩, hbehind⟩
      rw [Engine.streams, if_pos hlast]
      exact List.mem_append_left _ (List.mem_singleton_self _)
    | channel =>
      refine ⟨(t, (s.items t).length), List.mem_map.mpr ⟨t, List.mem_append_right _ (h.channel hlive rfl), rfl⟩, ?_⟩
      exact .here (List.getElem?_eq_some_iff.mp hat).1
    | replay => exact ho.elim

/-- A destroy or abort keeps the invariant. -/
theorem Inv.destroyed {idle : Prop} (he : p.engines a = some e) (hlive : e.status = .live)
    (hd : Process.Destroyed p p' a e e' idle) : Inv contextOf p' := by
  have hafter : ∀ b f, p'.engines b = some f → b = a ∧ f = e' ∨ b ≠ a ∧ p.engines b = some f := by
    intro b f hf
    rw [hd.engines] at hf
    split_ifs at hf with hb
    · exact Or.inl ⟨hb, (Option.some.inj hf).symm⟩
    · exact Or.inr ⟨hb, hf⟩
  have hnotQueued : a ∉ p.quarantined := by
    rw [h.listed]
    rintro ⟨f, hf, hqueued⟩
    cases he.symm.trans hf
    exact absurd (hlive.symm.trans hqueued) nofun
  have hcounted : ∀ part, p.released a part + e.held part ≤ 1 := fun part =>
    Engine.unreleased_eq (hlive.trans_ne nofun) ▸ h.counted a e he part
  refine ⟨hd.streams ▸ h.sound, fun b t i o hat => ?_, fun b f hf t i o hat => ?_, fun b f hf => ?_, fun b => ?_, ?_, fun b f hf hwhere part => ?_,
    fun b f hf part => ?_, fun b hb part => ?_⟩
  · rw [hd.streams] at hat
    rw [hd.engines]
    split_ifs
    · exact nofun
    · exact h.made b t i o hat
  · rw [hd.streams] at hat ⊢
    rcases hafter b f hf with ⟨rfl, rfl⟩ | ⟨-, hold⟩
    · exact (h.knows b e he t i o hat).destroyed hat hlive hd.context hd.status fun hqueued => ⟨(hd.waits hqueued).1, (hd.waits hqueued).2.1⟩
    · exact h.knows b f hold t i o hat
  · rcases hafter b f hf with ⟨rfl, rfl⟩ | ⟨-, hold⟩
    · intro send peer c hc
      rw [hd.context]
      exact h.channels b e he send peer c (hd.channel send peer c hc)
    · exact h.channels b f hold
  · rw [hd.quarantined, hd.engines]
    by_cases hb : b = a
    · subst hb
      rw [if_pos rfl]
      split_ifs with hqueued
      · exact ⟨fun _ => ⟨e', rfl, hqueued⟩, fun _ => List.mem_cons_self⟩
      · exact ⟨fun hmem => absurd hmem hnotQueued, fun ⟨f, hf, hqueued'⟩ => by cases hf; exact absurd hqueued' hqueued⟩
    rw [if_neg hb, ← h.listed]
    split_ifs
    · exact ⟨fun hmem => (List.mem_cons.mp hmem).resolve_left hb, List.mem_cons_of_mem a⟩
    · rfl
  · rw [hd.quarantined]
    split_ifs
    · exact List.nodup_cons.mpr ⟨hnotQueued, h.nodup⟩
    · exact h.nodup
  · rcases hafter b f hf with ⟨rfl, rfl⟩ | ⟨-, hold⟩
    · obtain ⟨-, -, hsurvivors, hp2p⟩ := hd.waits (hwhere.resolve_left hd.status)
      cases part
      · exact hsurvivors
      · exact hp2p
      · exact hsurvivors
    · exact h.clean b f hold hwhere part
  · rcases hafter b f hf with ⟨rfl, rfl⟩ | ⟨hb, hold⟩
    · cases part with
      | core => exact (hd.core.trans_le (hcounted .core))
      | channels => exact (hd.channels.trans_le (hcounted .channels))
      | record =>
        have hheld : p.released b .record + 1 ≤ 1 := hcounted .record
        rw [hd.record]
        split_ifs with hfreed
        · rw [Engine.unreleased, if_pos ⟨rfl, hfreed⟩]
          exact hheld
        · rw [Engine.unreleased_eq hfreed]
          exact hheld
    · rw [hd.released_other b hb]
      exact h.counted b f hold part
  · rw [hd.engines] at hb
    split_ifs at hb with hne
    rw [hd.released_other b hne]
    exact h.unmade b hb part

end

end SparkRing.EngineTeardown
