import SparkRing.TeardownReleases

/-!
# What an engine remembers of its kernels

The streams that an engine remembers end behind every kernel that one of its calls launched, as
long as no call since then could not be ordered, and behind every kernel of its channels. Kernels
of replayed graphs are not among them.
-/

namespace SparkRing.EngineTeardown

open StreamOrder (Item Streams)

variable {contextOf : ℕ → ℕ} {a b t u i peer : ℕ} {e e' e'' : Engine} {s s' s'' : Streams ℕ Work} {o : Origin} (mark : ℕ)
  {results : BeginResults}

/-- A kernel of an engine is at a place. -/
def KernelAt (s : Streams ℕ Work) (a t i : ℕ) (o : Origin) : Prop := s.At t i (.work (.kernel a o))

/-- The engine's streams end behind a kernel of this origin. -/
def Tracked (e : Engine) : Origin → Prop
  | .eager failures => failures = e.failures
  | .channel => True
  | .replay => False

/-- What an engine knows of a kernel of its own. -/
structure Known (contextOf : ℕ → ℕ) (s : Streams ℕ Work) (e : Engine) (t i : ℕ) (o : Origin) : Prop where
  context : contextOf t = e.context
  failures : e.status = .live → ∀ failures, o = .eager failures → failures ≤ e.failures
  last : e.status = .live → o = .eager e.failures → e.haveLast = true ∧ s.Behind t i e.lastStream (s.items e.lastStream).length
  channel : e.status = .live → o = .channel → t ∈ e.channelStreams
  queued : e.status = .quarantined → Tracked e o → ∃ mark ∈ e.quarantineDone, s.Behind t i mark.1 mark.2

theorem Known.mono (hgrow : s.Grows s') (h : Known contextOf s e t i o) : Known contextOf s' e t i o := { h with
  last hlive ho :=
    have hbehind := h.last hlive ho
    ⟨hbehind.1, (hbehind.2.mono hgrow).le (hgrow.items e.lastStream).length_le⟩
  queued hqueued ho :=
    have ⟨mark, hmark, hbehind⟩ := h.queued hqueued ho
    ⟨mark, hmark, hbehind.mono hgrow⟩ }

/-- The channels' streams are of the engine's context. -/
def ChannelContext (contextOf : ℕ → ℕ) (e : Engine) : Prop := ∀ send peer c, e.channel send peer = some c → contextOf c = e.context

def Knows (contextOf : ℕ → ℕ) (a : ℕ) (e : Engine) (s : Streams ℕ Work) : Prop := ∀ t i o, KernelAt s a t i o → Known contextOf s e t i o

theorem mem_channelStreams (send : Bool) {c : ℕ} (hpeer : peer < e.world) (h : e.channel send peer = some c) : c ∈ e.channelStreams := by
  refine List.mem_flatMap.mpr ⟨send, by cases send <;> decide, ?_⟩
  exact List.mem_filterMap.mpr ⟨peer, List.mem_range.mpr hpeer, h⟩

/-- What a call may do to a live engine and the streams. -/
structure Advances (contextOf : ℕ → ℕ) (a : ℕ) (e : Engine) (s : Streams ℕ Work) (e' : Engine) (s' : Streams ℕ Work) : Prop where
  grows : s.Grows s'
  sound : s.Sound → s'.Sound
  status : e'.status = e.status
  world : e'.world = e.world
  context : e'.context = e.context
  core : e'.core = e.core
  channelMemory : e'.channelMemory = e.channelMemory
  survivors : e'.survivors = e.survivors
  p2pSurvivors : e'.p2pSurvivors = e.p2pSurvivors
  channels : ChannelContext contextOf e → ChannelContext contextOf e'
  others : ∀ b ≠ a, ∀ t i o, KernelAt s' b t i o → KernelAt s b t i o
  knows : e.status = .live → ChannelContext contextOf e → Knows contextOf a e s → Knows contextOf a e' s'

theorem Advances.refl : Advances contextOf a e s e s :=
  ⟨Streams.Grows.refl s, id, rfl, rfl, rfl, rfl, rfl, rfl, rfl, id, fun _ _ _ _ _ h => h, fun _ _ h => h⟩

theorem Advances.trans (h : Advances contextOf a e s e' s') (h' : Advances contextOf a e' s' e'' s'') : Advances contextOf a e s e'' s'' where
  grows := h.grows.trans h'.grows
  sound := h'.sound ∘ h.sound
  status := h'.status.trans h.status
  world := h'.world.trans h.world
  context := h'.context.trans h.context
  core := h'.core.trans h.core
  channelMemory := h'.channelMemory.trans h.channelMemory
  survivors := h'.survivors.trans h.survivors
  p2pSurvivors := h'.p2pSurvivors.trans h.p2pSurvivors
  channels := h'.channels ∘ h.channels
  others b hb t i o hat := h.others b hb t i o (h'.others b hb t i o hat)
  knows hlive hchannels hknows := h'.knows (h.status.trans hlive) (h.channels hchannels) (h.knows hlive hchannels hknows)

/-- Work that is no engine's, or a wait, is enqueued. -/
theorem Advances.push (t : ℕ) {x : Item ℕ Work} (hx : ∀ b o, x ≠ .work (.kernel b o)) : Advances contextOf a e s e (s.push t x) where
  grows := Streams.grows_push s t x
  sound h := h.push t x
  status := rfl
  world := rfl
  context := rfl
  core := rfl
  channelMemory := rfl
  survivors := rfl
  p2pSurvivors := rfl
  channels := id
  others b _ _ _ o hat := hat.of_push.resolve_right fun h => hx b o h.2.2.symm
  knows _ _ hknows u i o hat := (hknows u i o (hat.of_push.resolve_right fun h => hx a o h.2.2.symm)).mono (Streams.grows_push s t x)

/-- A kernel that the engine is to know is enqueued. -/
theorem Advances.kernel (t : ℕ) (o : Origin) (hnew : e.status = .live → ChannelContext contextOf e →
    Known contextOf (s.push t (.work (.kernel a o))) e t (s.items t).length o) : Advances contextOf a e s e (s.push t (.work (.kernel a o))) where
  grows := Streams.grows_push s t _
  sound h := h.push t _
  status := rfl
  world := rfl
  context := rfl
  core := rfl
  channelMemory := rfl
  survivors := rfl
  p2pSurvivors := rfl
  channels := id
  others b hb u i o' hat := by
    refine hat.of_push.resolve_right fun h => hb ?_
    cases h.2.2
    rfl
  knows hlive hchannels hknows u i o' hat := by
    rcases hat.of_push with hold | ⟨rfl, rfl, heq⟩
    · exact (hknows u i o' hold).mono (Streams.grows_push s t _)
    · cases heq
      exact hnew hlive hchannels

theorem Advances.engine (hstatus : e'.status = e.status) (hworld : e'.world = e.world) (hcontext : e'.context = e.context)
    (hcore : e'.core = e.core) (hmemory : e'.channelMemory = e.channelMemory) (hsurvivors : e'.survivors = e.survivors)
    (hp2p : e'.p2pSurvivors = e.p2pSurvivors) (hchannels : ChannelContext contextOf e → ChannelContext contextOf e')
    (hknows : e.status = .live → ∀ t i o, Known contextOf s e t i o → Known contextOf s e' t i o) : Advances contextOf a e s e' s :=
  ⟨Streams.Grows.refl s, id, hstatus, hworld, hcontext, hcore, hmemory, hsurvivors, hp2p, hchannels, fun _ _ _ _ _ h => h,
    fun hlive _ h t i o hat => hknows hlive t i o (h t i o hat)⟩

/-- A stream behind the last one is the last one. -/
theorem Advances.follow (t : ℕ) (hlast : e.haveLast = true) :
    Advances contextOf a e s { e with lastStream := t } (s.push t (.wait e.lastStream (s.items e.lastStream).length)) where
  grows := Streams.grows_push s t _
  sound h := h.push t _
  status := rfl
  world := rfl
  context := rfl
  core := rfl
  channelMemory := rfl
  survivors := rfl
  p2pSurvivors := rfl
  channels := id
  others b _ u i o hat := hat.of_push.resolve_right fun h => nomatch h.2.2
  knows hlive _ hknows u i o hat := by
    have hold := hknows u i o (hat.of_push.resolve_right fun h => nomatch h.2.2)
    have hgrow := Streams.grows_push s t (.wait e.lastStream (s.items e.lastStream).length)
    refine ⟨hold.context, hold.failures, fun _ ho => ⟨hlast, ?_⟩, hold.channel, fun hqueued => absurd (hlive.symm.trans hqueued) nofun⟩
    -- The kernel is behind the end of the stream that was the last one, and the wait puts that behind the new end.
    refine .through ?_ (Streams.at_push s t _) ((hold.last hlive ho).2.mono hgrow)
    rw [Streams.items_push, if_pos rfl, List.length_append]
    exact Nat.lt_succ_self _

/-- A call that begins keeps what the engine knows; a call that is not captured leaves its stream the last one. -/
theorem beginCall_advances : (∀ e', beginCall e s t results = .error e' → Advances contextOf a e s e' s) ∧
      ∀ b, beginCall e s t results = .ok b → Advances contextOf a e s b.engine b.streams ∧
        (b.capturing = false → 1 < e.world → b.engine.haveLast = true ∧ b.engine.lastStream = t) := by
  have hcapture : ∀ id stream, Advances contextOf a e s { e with captureId := id, captureStream := stream } s := fun id stream =>
    .engine rfl rfl rfl rfl rfl rfl rfl (fun h => h) fun _ t i o h => ⟨h.context, h.failures, h.last, h.channel, h.queued⟩
  unfold beginCall
  split
  · refine ⟨fun e' h => ?_, nofun⟩
    cases h
    exact .refl
  cases hcap : results.capture with
  | error | invalidated => exact ⟨fun e' h => by cases h; exact .refl, nofun⟩
  | active =>
    dsimp only
    split_ifs
    · refine ⟨nofun, fun b h => ?_⟩
      cases h
      exact ⟨hcapture _ _, nofun⟩
    · exact ⟨fun e' h => by cases h; exact .refl, nofun⟩
    refine ⟨nofun, fun b h => ?_⟩
    cases h
    exact ⟨.refl, nofun⟩
  | none =>
    dsimp only
    split
    case isTrue hworld =>
      refine ⟨nofun, fun b h => ?_⟩
      cases h
      exact ⟨.refl, fun _ hmore => absurd hmore (Nat.not_lt.mpr hworld)⟩
    case isFalse =>
    by_cases hother : e.haveLast = true ∧ t ≠ e.lastStream
    · split_ifs with hfailed
      · refine ⟨fun e' h => ?_, nofun⟩
        cases h
        refine .engine rfl rfl rfl rfl rfl rfl rfl (fun h => h) fun hlive t i o h => ⟨h.context, fun _ f hf => ?_, fun _ ho => ?_, h.channel, ?_⟩
        · exact (h.failures hlive f hf).trans (Nat.le_succ _)
        · exact absurd (h.failures hlive _ ho) (Nat.not_succ_le_self _)
        intro hqueued
        rw [hlive] at hqueued
        cases hqueued
      refine ⟨nofun, fun b h => ?_⟩
      cases h
      exact ⟨.follow t hother.1, fun _ _ => ⟨hother.1, rfl⟩⟩
    · rw [if_neg hother]
      refine ⟨nofun, fun b h => ?_⟩
      cases h
      refine ⟨.engine rfl rfl rfl rfl rfl rfl rfl (fun h => h) fun hlive u i o h => ⟨h.context, h.failures, fun _ ho => ⟨rfl, ?_⟩, h.channel, ?_⟩, fun _ _ => ⟨rfl, rfl⟩⟩
      · obtain ⟨hlast, hbehind⟩ := h.last hlive ho
        have hsame : t = e.lastStream := by
          by_contra hne
          exact hother ⟨hlast, hne⟩
        rw [hsame]
        exact hbehind
      intro hqueued
      rw [hlive] at hqueued
      cases hqueued

/-- Other work on a stream changes nothing for an engine. -/
theorem pushAll_other_advances (n : ℕ) : Advances contextOf a e s e (pushAll s t (.work .other) n) := by
  induction n with
  | zero => exact .refl
  | succ n ih => exact ih.trans (.push t (by exact nofun))

/-- An engine knows the kernels that a call launches on its last stream. -/
theorem pushAll_eager_advances (hcontext : contextOf t = e.context) (hlast : e.haveLast = true) (hstream : e.lastStream = t) (n : ℕ) :
    Advances contextOf a e s e (pushAll s t (.work (.kernel a (.eager e.failures))) n) := by
  induction n with
  | zero => exact .refl
  | succ n ih =>
    refine ih.trans (.kernel t _ fun hlive _ => ⟨hcontext, fun _ f hf => ?_, fun _ _ => ⟨hlast, ?_⟩, nofun,
      fun hqueued => absurd (hlive.symm.trans hqueued) nofun⟩)
    · cases hf
      exact le_refl _
    rw [hstream]
    refine .here ?_
    rw [Streams.items_push, if_pos rfl, List.length_append]
    exact Nat.lt_succ_self _

/-- What a collective does to an engine and the streams. -/
theorem launch_advances {b : Begun} (hcontext : contextOf t = e.context) (hbegin : beginCall e s t results = .ok b) (kernels : ℕ) :
    Advances contextOf a e s (launch a b t kernels).1 (launch a b t kernels).2 := by
  obtain ⟨hbegun, hordered⟩ := (beginCall_advances (a := a)).2 b hbegin
  unfold launch
  by_cases hcapturing : b.capturing = true
  · rw [if_pos hcapturing]
    exact hbegun.trans (.engine rfl rfl rfl rfl rfl rfl rfl (fun h => h) fun _ t i o h => ⟨h.context, h.failures, h.last, h.channel, h.queued⟩)
  rw [if_neg hcapturing]
  split_ifs with hworld
  · exact hbegun.trans (pushAll_other_advances kernels)
  rw [not_le, hbegun.world] at hworld
  obtain ⟨hlast, hstream⟩ := hordered (Bool.eq_false_iff.mpr hcapturing) hworld
  exact hbegun.trans (pushAll_eager_advances (hcontext.trans hbegun.context.symm) hlast hstream kernels)

/-- A channel's stream stays one of the engine's when a channel gets a stream. -/
theorem channelStreams_set {send : Bool} {c : ℕ} (hkeeps : ∀ c', e.channel send peer = some c' → c' = c) (h : t ∈ e.channelStreams) :
    t ∈ Engine.channelStreams { e with channel := fun send' peer' => if send' = send ∧ peer' = peer then some c else e.channel send' peer' } := by
  obtain ⟨send', -, h⟩ := List.mem_flatMap.mp h
  obtain ⟨peer', hpeer', h⟩ := List.mem_filterMap.mp h
  refine mem_channelStreams send' (List.mem_range.mp hpeer') ?_
  dsimp only
  split_ifs with hsame
  · obtain ⟨rfl, rfl⟩ := hsame
    rw [hkeeps t h]
  · exact h

/-- A send or receive of a group keeps what the engine knows. -/
theorem groupOp_advances (g : Group) (op : ChannelOp) (hpeer : op.peer < g.engine.world) :
    Advances contextOf a g.engine g.streams (groupOp contextOf a t mark g op).engine (groupOp contextOf a t mark g op).streams := by
  unfold groupOp
  split
  · exact .refl
  cases hmade : (g.engine.channel op.send op.peer).or (op.made.filter fun c => contextOf c = g.engine.context) with
  | none => exact .refl
  | some c =>
    have hkeeps : ∀ c', g.engine.channel op.send op.peer = some c' → c' = c := fun c' hc' => by
      rw [hc', Option.some_or] at hmade
      exact Option.some.inj hmade
    have hcontext : ChannelContext contextOf g.engine → contextOf c = g.engine.context := fun hchannels => by
      cases hc' : g.engine.channel op.send op.peer with
      | none =>
        rw [hc', Option.none_or] at hmade
        exact of_decide_eq_true (Option.filter_eq_some_iff.mp hmade).2
      | some c' => exact hkeeps c' hc' ▸ hchannels _ _ c' hc'
    dsimp only
    generalize hset : ({ g.engine with channel := fun send peer => if send = op.send ∧ peer = op.peer then some c else g.engine.channel send peer } : Engine) = e'
    have hengine : Advances contextOf a g.engine g.streams e' g.streams := by
      subst hset
      refine .engine rfl rfl rfl rfl rfl rfl rfl (fun hchannels send peer c' hc' => ?_)
        fun _ u i o h => ⟨h.context, h.failures, h.last, fun hlive ho => channelStreams_set hkeeps (h.channel hlive ho), h.queued⟩
      dsimp only at hc'
      split_ifs at hc'
      · cases hc'
        exact hcontext hchannels
      · exact hchannels _ _ c' hc'
    have hmember : c ∈ e'.channelStreams := by
      subst hset
      exact mem_channelStreams op.send hpeer (if_pos ⟨rfl, rfl⟩)
    have hstream : ChannelContext contextOf e' → contextOf c = e'.context := by
      subst hset
      intro hchannels
      exact hchannels op.send op.peer c (if_pos ⟨rfl, rfl⟩)
    -- The channel's stream waits for the group once, and its kernel is behind that.
    have hkernel : ∀ s', Advances contextOf a e' s' e' (s'.push c (.work (.kernel a .channel))) := fun s' =>
      .kernel c .channel fun hlive hchannels =>
        ⟨hstream hchannels, nofun, nofun, fun _ _ => hmember, fun hqueued => absurd (hlive.symm.trans hqueued) nofun⟩
    have hwait : Advances contextOf a e' g.streams e' (g.streams.push c (.wait t mark)) := .push c (by exact nofun)
    by_cases hwaited : c ∉ g.joined ∧ op.waited = false
    · rw [if_pos hwaited]
      exact hengine
    by_cases hjoined : c ∈ g.joined
    · split_ifs
      · exact hengine.trans (hkernel _)
      · exact hengine
    split_ifs
    · exact hengine.trans (hwait.trans (hkernel _))
    · exact hengine.trans hwait

theorem foldl_groupOp_advances (ops : List ChannelOp) (g : Group) (hpeers : ∀ op ∈ ops, op.peer < g.engine.world) :
    Advances contextOf a g.engine g.streams (ops.foldl (groupOp contextOf a t mark) g).engine (ops.foldl (groupOp contextOf a t mark) g).streams := by
  induction ops generalizing g with
  | nil => exact .refl
  | cons op ops ih =>
    have hop : Advances contextOf a g.engine g.streams (groupOp contextOf a t mark g op).engine (groupOp contextOf a t mark g op).streams :=
      groupOp_advances mark g op (hpeers op List.mem_cons_self)
    refine hop.trans (ih _ fun op' hop' => ?_)
    rw [hop.world]
    exact hpeers op' (List.mem_cons_of_mem op hop')

theorem foldl_joinStream_advances (joins : ℕ → Bool) (joined : List ℕ) (s : Streams ℕ Work) :
    Advances contextOf a e s e (joined.foldl (joinStream t joins) s) := by
  induction joined generalizing s with
  | nil => exact .refl
  | cons c joined ih =>
    have hone : Advances contextOf a e s e (joinStream t joins s c) := by
      unfold joinStream
      split_ifs
      · exact .push t (by exact nofun)
      · exact .refl
    exact hone.trans (ih _)

/-- What a channel group does to an engine and the streams. -/
theorem p2pGroup_advances (recorded : Bool) (ops : List ChannelOp) (joins : ℕ → Bool) (hpeers : ∀ op ∈ ops, op.peer < e.world) :
    Advances contextOf a e s (p2pGroup contextOf a e s t recorded ops joins).1 (p2pGroup contextOf a e s t recorded ops joins).2 := by
  unfold p2pGroup
  split_ifs
  · exact .refl
  refine (foldl_groupOp_advances (t := t) (s.items t).length _ ⟨e, s, [], true⟩ fun op hop => ?_).trans (foldl_joinStream_advances joins _ _)
  rcases List.mem_append.mp hop with hop | hop
  · exact hpeers op (List.mem_filter.mp hop).1
  · exact hpeers op (List.mem_filter.mp hop).1

end SparkRing.EngineTeardown
