import SparkRing.TeardownInvariant

/-!
# What a teardown may release

A creation, destroy or abort releases memory of an engine only when nothing of the engine runs,
exactly as long as the engine remembers every kernel of its own that does.
-/

namespace SparkRing.EngineTeardown

open StreamOrder (Item Streams)
open TransitionSystem

variable {contextOf : ℕ → ℕ} {p p' p'' : Process} {a b t i : ℕ} {e e' : Engine} {s : Streams ℕ Work} {o : Origin} {act : Act}
  {answers : ℕ → ℕ → Bool} {results : Process.DestroyResults} {abort : Bool}

/-- Every kernel of an engine is done. -/
def Finished (s : Streams ℕ Work) (a : ℕ) : Prop := ∀ t i o, KernelAt s a t i o → i < s.done t

/-- The engine remembers every kernel of its own that is not done. -/
def Covered (s : Streams ℕ Work) (a : ℕ) (e : Engine) : Prop := ∀ t i o, KernelAt s a t i o → s.done t ≤ i → Tracked e o

theorem Finished.covered (h : Finished s a) : Covered s a e := fun t i o hat hruns => absurd (h t i o hat) (Nat.not_lt.mpr hruns)

section

variable (h : Inv contextOf p) (he : p.engines a = some e)

include h he

/-- What an engine remembers is done when its streams are. -/
theorem Inv.finished_of_streams (hlive : e.status = .live)
    (hidle : ∀ t ∈ e.streams, p.streams.idle t = true) (hcovered : Covered p.streams a e) : Finished p.streams a := by
  intro t i o hat
  have hknown := h.knows a e he t i o hat
  by_contra hruns
  have htracked := hcovered t i o hat (Nat.not_lt.mp hruns)
  cases o with
  | eager =>
    obtain ⟨hlast, hbehind⟩ := hknown.last hlive (congrArg Origin.eager htracked)
    have hmember : e.lastStream ∈ e.streams := by
      rw [Engine.streams, if_pos hlast]
      exact List.mem_append_left _ (List.mem_singleton_self _)
    exact hruns (hbehind.done h.sound (of_decide_eq_true (hidle _ hmember)).ge)
  | channel => exact hruns (Streams.done_of_idle (hidle t (List.mem_append_right _ (hknown.channel hlive rfl))) hat)
  | replay => exact htracked

/-- No kernel of an engine runs in an idle context. -/
theorem Inv.finished_of_contextIdle (hidle : p.contextIdle contextOf e.context = true) : Finished p.streams a := by
  intro t i o hat
  have hcontext := (h.knows a e he t i o hat).context
  have hused : t ∈ p.streams.used := h.sound.used t (List.ne_nil_of_mem (List.mem_of_getElem? hat))
  have hstream := List.all_eq_true.mp hidle t hused
  rw [hcontext, decide_eq_false (not_not.mpr rfl), Bool.false_or] at hstream
  exact Streams.done_of_idle hstream hat

/-- An engine that a destroy or abort finds idle has no kernel running that it remembers. -/
theorem Inv.finished_of_findsIdle (hlive : e.status = .live)
    (hidle : p.findsIdle contextOf e abort results = true) (hcovered : Covered p.streams a e) : Finished p.streams a := by
  unfold Process.findsIdle at hidle
  split_ifs at hidle
  · refine h.finished_of_streams he hlive (fun t ht => ?_) hcovered
    exact (Bool.and_eq_true _ _ ▸ List.all_eq_true.mp hidle t ht).2
  · exact h.finished_of_contextIdle he (Bool.and_eq_true _ _ ▸ hidle).2

/-- An engine whose events are complete has no kernel running that it remembered. -/
theorem Inv.finished_of_reclaimable (hqueued : e.status = .quarantined)
    (hcontext : p.gone e.context = false) (hgoes : p.reclaimable answers a = true) (hcovered : Covered p.streams a e) : Finished p.streams a := by
  intro t i o hat
  by_contra hruns
  obtain ⟨mark, hmark, hbehind⟩ := (h.knows a e he t i o hat).queued hqueued (hcovered t i o hat (Nat.not_lt.mp hruns))
  rw [Process.reclaimable, he] at hgoes
  dsimp only at hgoes
  rw [hcontext, Bool.false_or] at hgoes
  obtain ⟨n, hn⟩ := List.mem_iff_getElem?.mp hmark
  have hreached := List.all_eq_true.mp hgoes (mark, n) (List.mk_mem_zipIdx_iff_getElem?.mpr hn)
  exact hruns (hbehind.done h.sound (of_decide_eq_true (Bool.and_eq_true _ _ ▸ hreached).2))

omit h he in
theorem withEngine_some {run : Engine → Engine × Streams ℕ Work} (h : withEngine p contextOf a t run = some p') :
    ∃ e, p.engines a = some e ∧ e.status = .live ∧ contextOf t = e.context ∧ p' = { p.put a (run e).1 with streams := (run e).2 } := by
  unfold withEngine at h
  cases he : p.engines a with
  | none =>
    rw [he] at h
    cases h
  | some e =>
    rw [he] at h
    dsimp only at h
    split_ifs at h with hlive
    exact ⟨e, rfl, hlive.1, hlive.2, (Option.some.inj h).symm⟩

omit h he in
/-- Items that are no kernels change nothing for the engines. -/
theorem Inv.push (h : Inv contextOf p) (t : ℕ) {x : Item ℕ Work} (hx : ∀ b o, x ≠ .work (.kernel b o)) :
    Inv contextOf { p with streams := p.streams.push t x } :=
  h.streams (Streams.grows_push _ t x) (h.sound.push t x) fun b _ _ o hat => Or.inl (hat.of_push.resolve_right fun hnew => hx b o hnew.2.2.symm)

/-- A replayed graph's kernel is one that its engine does not remember. -/
theorem Inv.replay (hcontext : contextOf t = e.context) :
    Inv contextOf { p with streams := p.streams.push t (.work (.kernel a .replay)) } := by
  refine h.streams (Streams.grows_push _ t _) (h.sound.push t _) fun b u i o hat => ?_
  rcases hat.of_push with hold | ⟨rfl, -, heq⟩
  · exact Or.inl hold
  · cases heq
    exact Or.inr ⟨e, he, hcontext, nofun, nofun, nofun, fun _ htracked => htracked.elim⟩

end

/-- Every step keeps the invariant. -/
theorem Inv.step (h : Inv contextOf p) (hstep : step contextOf p act = some p') : Inv contextOf p' := by
  cases act with
  | create a world context p2p answers =>
    unfold EngineTeardown.step at hstep
    dsimp only at hstep
    split_ifs at hstep with hnone
    cases hstep
    rw [Option.isNone_iff_eq_none] at hnone
    refine (h.reclaim answers).create ?_ world context p2p
    rw [h.reclaim_engine answers (fun e he => by cases hnone.symm.trans he), hnone]
  | call a t results kernels =>
    obtain ⟨e, he, hlive, hcontext, rfl⟩ := withEngine_some hstep
    refine h.advances he hlive ?_
    cases hbegin : beginCall e p.streams t results with
    | error e' => exact beginCall_advances.1 e' hbegin
    | ok => exact launch_advances hcontext hbegin kernels
  | group a t results recorded ops joins =>
    unfold EngineTeardown.step at hstep
    obtain ⟨e, he, hlive, hcontext, rfl⟩ := withEngine_some hstep
    refine h.advances he hlive ?_
    split_ifs with hrefused
    · exact .refl
    cases hbegin : beginCall e p.streams t results with
    | error e' => exact beginCall_advances.1 e' hbegin
    | ok b =>
      have hbegun : Advances contextOf a e p.streams b.engine b.streams := (beginCall_advances.2 b hbegin).1
      dsimp only
      split_ifs
      · exact hbegun
      refine hbegun.trans (p2pGroup_advances recorded ops joins fun op hop => ?_)
      rw [not_or, Bool.not_eq_false, Bool.not_eq_false] at hrefused
      rw [hbegun.world]
      exact of_decide_eq_true (List.all_eq_true.mp hrefused.2 op hop)
  | replay a t =>
    unfold EngineTeardown.step at hstep
    cases he : p.engines a with
    | none =>
      simp only [he] at hstep
      cases hstep
    | some =>
      simp only [he] at hstep
      split_ifs at hstep with hcaptured
      cases hstep
      exact h.replay he hcaptured.2
  | foreign t | awaits t u mark =>
    cases hstep
    exact h.push t (by intro _ _ hi; cases hi)
  | finish =>
    obtain ⟨s, hs, rfl⟩ := Option.map_eq_some_iff.mp hstep
    obtain ⟨hsound, hgrow, hitems⟩ := h.sound.finish hs
    refine h.streams hgrow hsound fun a u i o hat => Or.inl ?_
    rwa [KernelAt, Streams.At, hitems] at hat
  | destroyContext =>
    cases hstep
    exact h.destroyContext _
  | destroy a abort results =>
    unfold EngineTeardown.step at hstep
    cases he : p.engines a with
    | none =>
      simp only [he] at hstep
      cases hstep
    | some e =>
      simp only [he] at hstep
      split_ifs at hstep with hlive
      cases hstep
      have hleft := h.clean a e he (Or.inl hlive)
      obtain ⟨e', hd⟩ := Process.destroyed contextOf p a e abort results (hleft .core) (hleft .channels)
      refine (h.reclaim results.answers).destroyed ?_ hlive hd
      rw [h.reclaim_engine results.answers fun f hf => ?_, he]
      cases he.symm.trans hf
      exact hlive.trans_ne fun h => by cases h

/-- The invariant holds in every run. -/
theorem Inv.reachable (h : Reachable (EngineTeardown.step contextOf) Unrestricted Process.start p) : Inv contextOf p :=
  h.invariant (Inv contextOf) .start fun _ _ _ _ hinv _ hstep => hinv.step hstep

/-- A step releases a part of an engine only when every kernel launched for the engine is done or its context
is gone, and no verbs object of the part is left. -/
def ReleasedSafely (p p' : Process) (a : ℕ) : Prop :=
  ∀ part, p.released a part < p'.released a part →
    ∃ e, p'.engines a = some e ∧ (p.gone e.context = true ∨ Finished p.streams a) ∧ e.left part = 0

/-- A quarantined engine whose events are complete remembered its kernels that run. -/
def ReclaimRemembers (p : Process) (answers : ℕ → ℕ → Bool) (a : ℕ) : Prop :=
  ∀ e, p.engines a = some e → e.status = .quarantined → p.gone e.context = false → p.reclaimable answers a = true → Covered p.streams a e

/-- An engine that a destroy or abort finds idle, and that may release memory, remembers its kernels that run. -/
def DestroyRemembers (contextOf : ℕ → ℕ) (p : Process) (abort : Bool) (results : Process.DestroyResults) (a : ℕ) : Prop :=
  ∀ e, p.engines a = some e → p.gone e.context = false → p.findsIdle contextOf e abort results = true → results.lets e = true →
    Covered p.streams a e

/-- The engines that a step finds idle remember their kernels that run. -/
def Remembers (contextOf : ℕ → ℕ) (p : Process) : Act → Prop
  | .create _ _ _ _ answers => ∀ b, ReclaimRemembers p answers b
  | .destroy a abort results => (∀ b, ReclaimRemembers p results.answers b) ∧ DestroyRemembers contextOf p abort results a
  | _ => True

/-- A release depends only on what the step leaves of the engine. -/
theorem ReleasedSafely.congr (hreleased : p''.released a = p'.released a) (hengine : p''.engines a = p'.engines a) :
    ReleasedSafely p p'' a ↔ ReleasedSafely p p' a := by
  unfold ReleasedSafely
  rw [hreleased, hengine]

/-- A step that releases nothing. -/
theorem ReleasedSafely.of_eq (hreleased : p'.released a = p.released a) : ReleasedSafely p p' a := fun part hless => by
  rw [hreleased] at hless
  exact absurd hless (lt_irrefl _)

/-- A reclaim is safe exactly for the engines that remembered their kernels. -/
theorem Inv.reclaim_safely_iff (h : Inv contextOf p) (answers : ℕ → ℕ → Bool) (a : ℕ) :
    ReleasedSafely p (p.quarantineReclaim answers) a ↔ ReclaimRemembers p answers a := by
  obtain ⟨-, -, -, hengines, hreleased⟩ := Process.quarantineReclaim_spec h.nodup answers
  constructor
  · intro hsafe e he hqueued hcontext hgoes
    have hmember : a ∈ p.reclaimed answers := List.mem_filter.mpr ⟨(h.listed a).mpr ⟨e, he, hqueued⟩, hgoes⟩
    obtain ⟨f, hf, hwhy, -⟩ := hsafe .record (by
      rw [hreleased, if_pos hmember, he]
      exact Nat.lt_succ_self _)
    rw [hengines, if_pos hmember, he] at hf
    cases hf
    refine Finished.covered (hwhy.resolve_left fun hgone => ?_)
    exact absurd (hgone.symm.trans hcontext) (by decide)
  · intro hremembers part hless
    rw [hreleased] at hless
    have hmember : a ∈ p.reclaimed answers := by
      by_contra hnot
      rw [if_neg hnot] at hless
      exact lt_irrefl _ hless
    obtain ⟨hlisted, hgoes⟩ := List.mem_filter.mp hmember
    obtain ⟨e, he, hqueued⟩ := (h.listed a).mp hlisted
    refine ⟨e.gone, by rw [hengines, if_pos hmember, he]; rfl, ?_, ?_⟩
    · cases hcontext : p.gone e.context with
      | true => exact Or.inl hcontext
      | false => exact Or.inr (h.finished_of_reclaimable he hqueued hcontext hgoes (hremembers e he hqueued hcontext hgoes))
    have hleft := h.clean a e he (Or.inr hqueued) part
    cases part
    · exact hleft
    · exact hleft
    · exact hleft

/-- A creation is safe exactly when its reclaim is. -/
theorem Inv.create_safely_iff (h : Inv contextOf p) (hnone : p.engines a = none) (e : Engine) (answers : ℕ → ℕ → Bool) :
    (∀ b, ReleasedSafely p ((p.quarantineReclaim answers).put a e) b) ↔ ∀ b, ReclaimRemembers p answers b := by
  refine forall_congr' fun b => ?_
  rw [← h.reclaim_safely_iff]
  by_cases hb : b = a
  · subst hb
    have hsame : (p.quarantineReclaim answers).engines b = none := by
      rw [h.reclaim_engine answers fun e he => nomatch hnone.symm.trans he]
      exact hnone
    have hnothing : (p.quarantineReclaim answers).released b = p.released b := funext fun part => by
      rw [(h.reclaim answers).unmade b hsame, h.unmade b hnone]
    exact iff_of_true (.of_eq hnothing) (.of_eq hnothing)
  · exact ReleasedSafely.congr rfl (by rw [Process.put_engines, if_neg hb])

theorem findsIdle_congr (h : p'.streams = p.streams) : p'.findsIdle contextOf e abort results = p.findsIdle contextOf e abort results := by
  unfold Process.findsIdle Process.contextIdle
  rw [h]

/-- A destroy or abort is safe exactly when the engines that it finds idle remembered their kernels. -/
theorem Inv.destroy_safely_iff (h : Inv contextOf p) (he : p.engines a = some e) (hlive : e.status = .live) :
    (∀ b, ReleasedSafely p (p.engineDestroy contextOf a e abort results) b) ↔
      (∀ b, ReclaimRemembers p results.answers b) ∧ DestroyRemembers contextOf p abort results a := by
  obtain ⟨hstreams, hgone, -, -, -⟩ := Process.quarantineReclaim_spec h.nodup results.answers
  have hclean := h.clean a e he (Or.inl hlive)
  obtain ⟨e', hd⟩ := Process.destroyed contextOf p a e abort results (hclean .core) (hclean .channels)
  rw [findsIdle_congr hstreams] at hd
  have hnotQueued : ∀ f, p.engines a = some f → f.status ≠ .quarantined := fun f hf => by
    cases he.symm.trans hf
    exact hlive.trans_ne nofun
  have hsame : (p.quarantineReclaim results.answers).released a = p.released a := funext fun part => by
    obtain ⟨-, -, -, -, hreleased⟩ := Process.quarantineReclaim_spec h.nodup results.answers
    rw [hreleased, if_neg, Nat.add_zero]
    intro hmember
    obtain ⟨f, hf, hqueued⟩ := (h.listed a).mp (List.mem_filter.mp hmember).1
    exact hnotQueued f hf hqueued
  -- The other engines are as the reclaim left them.
  have hothers : ∀ b ≠ a, ReleasedSafely p (p.engineDestroy contextOf a e abort results) b ↔ ReclaimRemembers p results.answers b := by
    intro b hb
    rw [← h.reclaim_safely_iff]
    exact ReleasedSafely.congr (funext (hd.released_other b hb)) (by rw [hd.engines, if_neg hb])
  have hown : ReclaimRemembers p results.answers a := fun f hf hqueued => absurd hqueued (hnotQueued f hf)
  have hengine : (p.engineDestroy contextOf a e abort results).engines a = some e' := by rw [hd.engines, if_pos rfl]
  have hdestroyed : ReleasedSafely p (p.engineDestroy contextOf a e abort results) a ↔ DestroyRemembers contextOf p abort results a := by
    constructor
    · intro hsafe f hf hcontext hidle hlets
      cases he.symm.trans hf
      rw [← hgone] at hcontext
      obtain ⟨part, hless⟩ := hd.frees hcontext ⟨hidle, hlets⟩
      rw [hsame] at hless
      obtain ⟨g, hg, hwhy, -⟩ := hsafe part hless
      cases hengine.symm.trans hg
      rw [hd.context] at hwhy
      refine Finished.covered (hwhy.resolve_left fun hlost => ?_)
      rw [hgone] at hcontext
      exact absurd (hlost.symm.trans hcontext) (by decide)
    · intro hremembers part hless
      rw [← hsame] at hless
      obtain ⟨hwhy, hleft⟩ := hd.safe part hless
      rw [hgone] at hwhy
      refine ⟨e', hengine, ?_, hleft⟩
      rw [hd.context]
      cases hcontext : p.gone e.context with
      | true => exact Or.inl rfl
      | false =>
        obtain ⟨hidle, hlets⟩ := hwhy.resolve_left fun hlost => absurd (hlost.symm.trans hcontext) (by decide)
        exact Or.inr (h.finished_of_findsIdle he hlive hidle (hremembers e he hcontext hidle hlets))
  constructor
  · intro hsafe
    refine ⟨fun b => ?_, hdestroyed.mp (hsafe a)⟩
    by_cases hb : b = a
    · exact hb ▸ hown
    · exact (hothers b hb).mp (hsafe b)
  rintro ⟨hreclaims, hremembers⟩ b
  by_cases hb : b = a
  · exact hb ▸ hdestroyed.mpr hremembers
  · exact (hothers b hb).mpr (hreclaims b)

/-- In every run nothing is released twice, and a step releases an engine's memory only when no kernel of the
engine runs, exactly when the engines that it finds idle remember their kernels that run. -/
theorem released_safely_iff (h : Reachable (step contextOf) Unrestricted Process.start p) :
    (∀ a part, p.released a part ≤ 1) ∧
      ∀ act p', step contextOf p act = some p' → ((∀ a, ReleasedSafely p p' a) ↔ Remembers contextOf p act) := by
  have hinv := Inv.reachable h
  refine ⟨hinv.once, fun act p' hstep => ?_⟩
  have hquiet : p'.released = p.released → ((∀ a, ReleasedSafely p p' a) ↔ True) := fun hsame =>
    iff_true_intro fun a => .of_eq (congrFun hsame a)
  cases act with
  | create a world context p2p answers =>
    unfold step at hstep
    dsimp only at hstep
    split_ifs at hstep with hnone
    cases hstep
    exact hinv.create_safely_iff (Option.isNone_iff_eq_none.mp hnone) _ answers
  | call | group =>
    obtain ⟨e, -, -, -, rfl⟩ := withEngine_some hstep
    exact hquiet rfl
  | replay a t =>
    unfold step at hstep
    cases he : p.engines a with
    | none =>
      simp only [he] at hstep
      cases hstep
    | some =>
      simp only [he] at hstep
      split_ifs at hstep
      cases hstep
      exact hquiet rfl
  | foreign | awaits =>
    cases hstep
    exact hquiet rfl
  | finish =>
    obtain ⟨s, -, rfl⟩ := Option.map_eq_some_iff.mp hstep
    exact hquiet rfl
  | destroyContext =>
    cases hstep
    exact hquiet rfl
  | destroy a abort results =>
    unfold step at hstep
    cases he : p.engines a with
    | none =>
      simp only [he] at hstep
      cases hstep
    | some =>
      simp only [he] at hstep
      split_ifs at hstep with hlive
      cases hstep
      exact hinv.destroy_safely_iff he hlive

/-- Driver and verbs calls of a destroy that all succeed. -/
def allSucceed : Process.DestroyResults := ⟨fun _ _ => true, true, fun _ => true, 0, 0, 0⟩

/-- A call on a stream that is not captured. -/
def eagerCall : BeginResults := ⟨true, .none, true, true⟩

/-- A call that a graph captures. -/
def capturedCall : BeginResults := ⟨true, .active 7, true, true⟩

/-- An engine is aborted after its one kernel is done. -/
theorem finished_call_released :
    ∃ p p', Reachable (step fun _ => 0) Unrestricted Process.start p ∧ step (fun _ => 0) p (.destroy 0 true allSucceed) = some p' ∧
      p.released 0 .core < p'.released 0 .core ∧ ∀ a, ReleasedSafely p p' a := by
  obtain ⟨p, hreach, hp⟩ := Reachable.exists_of_runs (step fun _ => 0) Process.start
    [.create 0 2 0 false fun _ _ => true, .call 0 0 eagerCall 1, .finish 0]
    (fun p : Process => decide (p.quarantined = []) && (p.engines 0).any (fun e : Engine => decide (e.context = 0)) && p.contextIdle (fun _ => 0) 0 &&
      ((step (fun _ => 0) p (.destroy 0 true allSucceed)).any fun p' : Process => decide (p.released 0 .core < p'.released 0 .core)))
    (by decide +kernel)
  simp only [Bool.and_eq_true, decide_eq_true_eq, Option.any_eq_true] at hp
  obtain ⟨⟨⟨hquarantined, e, he, hcontext⟩, hidle⟩, p', hp', hless⟩ := hp
  have hinv := Inv.reachable hreach
  refine ⟨p, p', hreach, hp', hless, ((released_safely_iff hreach).2 _ p' hp').mpr ⟨fun b f hf hqueued => ?_, fun f hf _ _ _ => ?_⟩⟩
  · have hlisted := (hinv.listed b).mpr ⟨f, hf, hqueued⟩
    rw [hquarantined] at hlisted
    cases hlisted
  · cases he.symm.trans hf
    exact (hinv.finished_of_contextIdle he (hcontext.symm ▸ hidle)).covered

/-- An engine is aborted while the kernel of a replayed graph runs, and its memory goes. -/
theorem replayed_graph_loses_memory :
    ∃ p p', Reachable (step fun _ => 0) Unrestricted Process.start p ∧ step (fun _ => 0) p (.destroy 0 true allSucceed) = some p' ∧
      ¬ReleasedSafely p p' 0 := by
  obtain ⟨p, hreach, hp⟩ := Reachable.exists_of_runs (step fun _ => 0) Process.start
    [.create 0 2 0 false fun _ _ => true, .call 0 0 capturedCall 1, .replay 0 1]
    (fun p : Process => decide ((p.streams.items 1)[0]? = some (Item.work (Work.kernel 0 .replay))) && decide (p.streams.done 1 = 0) && decide (p.gone 0 = false) &&
      ((step (fun _ => 0) p (.destroy 0 true allSucceed)).any fun p' : Process => decide (p.released 0 .core < p'.released 0 .core) &&
        (p'.engines 0).any fun e : Engine => decide (e.context = 0)))
    (by decide +kernel)
  simp only [Bool.and_eq_true, decide_eq_true_eq, Option.any_eq_true] at hp
  obtain ⟨⟨⟨hkernel, hdone⟩, hgone⟩, p', hp', hless, e, he, hcontext⟩ := hp
  refine ⟨p, p', hreach, hp', fun hsafe => ?_⟩
  obtain ⟨f, hf, hwhy, -⟩ := hsafe .core hless
  cases he.symm.trans hf
  rw [hcontext] at hwhy
  rcases hwhy with hlost | hfinished
  · exact absurd (hlost.symm.trans hgone) (by decide)
  · exact absurd (hfinished 1 0 .replay hkernel) (by rw [hdone]; exact lt_irrefl 0)

end SparkRing.EngineTeardown
