import SparkRing.RelayRoutes

/-!
# What a comparison emits

Every part of a comparison emits commands for the objects it compared, and a part that
emits one lists a change. An unblocked comparison was given consent for each change of
an unowned object. From these the script of a comparison is known: which filters,
qdiscs and neighbours it names, and in which order it works on the routes.
-/

namespace SparkRing.Relay

open Routes (Roles)
open List (filter_cons_of_neg mem_cons mem_filter mem_flatMap mem_singleton)

variable {state : HostState} {adopt : Bool} {c : Command} (parts : List Part) {hostname : String} {planned : ℤ → Option RelayFilter}
  {entries : List FilterEntry} {changes : List Change} {pref : ℤ}

variable {emitted : List Command}

theorem mem_scriptBody : c ∈ scriptBody emitted ↔ c ∈ emitted ∧ c.slot ≠ none := by
  simp only [scriptBody, mem_flatMap, mem_filter, decide_eq_true_eq]
  constructor
  · rintro ⟨slot, -, hc, hs⟩
    exact ⟨hc, by simp [hs]⟩
  rintro ⟨hc, hs⟩
  obtain ⟨slot, hs⟩ := Option.ne_none_iff_exists'.mp hs
  exact ⟨slot, by cases slot <;> simp [Slot.order], hc, hs⟩

/-- A line of a script is an emitted command or one of its frame. -/
theorem mem_scriptLines (h : c ∈ scriptLines hostname emitted) : c ∈ emitted ∨ c = .strict ∨ c = .guard hostname ∨ c = .settle := by
  unfold scriptLines at h
  split_ifs at h with hbody hsettle
  · simp at h
  · simp only [List.mem_append, mem_cons, List.not_mem_nil, or_false, mem_scriptBody] at h
    tauto
  · simp only [List.mem_append, mem_cons, List.not_mem_nil, or_false, mem_scriptBody] at h
    tauto

/-- Every emitted command of a slot is a line. -/
theorem scriptLines_of_mem (hc : c ∈ emitted) (hs : c.slot ≠ none) : c ∈ scriptLines hostname emitted := by
  have hbody := mem_scriptBody.mpr ⟨hc, hs⟩
  rw [scriptLines, if_neg (List.ne_nil_of_mem hbody)]
  exact List.mem_append_left _ (List.mem_cons_of_mem _ (List.mem_cons_of_mem _ hbody))

def inSlot (slot : Slot) (emitted : List Command) : List Command := emitted.filter fun c => decide (c.slot = some slot)

theorem filter_inSlot {slot : Slot} : (inSlot slot emitted).filter Command.onRoutes =
      if slot = .routeSet ∨ slot = .routeDel then inSlot slot emitted else [] := by
  have hslot : ∀ c ∈ inSlot slot emitted, c.onRoutes = decide (slot = .routeSet ∨ slot = .routeDel) := by
    intro c hc
    have hs := of_decide_eq_true (mem_filter.mp hc).2
    simp [Command.onRoutes, hs]
  rw [List.filter_congr hslot]
  by_cases h : slot = .routeSet ∨ slot = .routeDel
  · simp [h]
  · simp [h]

/-- A script sets routes first and deletes routes afterwards. -/
theorem filter_scriptLines (hostname : String) (emitted : List Command) : (scriptLines hostname emitted).filter Command.onRoutes =
      inSlot .routeSet emitted ++ inSlot .routeDel emitted := by
  have hbody : (scriptBody emitted).filter Command.onRoutes =
      inSlot .routeSet emitted ++ inSlot .routeDel emitted := by
    have hslots : scriptBody emitted = Slot.order.flatMap fun slot => inSlot slot emitted := rfl
    rw [hslots]
    simp only [Slot.order, List.flatMap_cons, List.flatMap_nil, List.append_nil, List.filter_append, filter_inSlot]
    simp
  unfold scriptLines
  split_ifs with hempty hsettle
  · rw [← hbody, hempty]
  · rw [List.filter_append, filter_cons_of_neg (by decide), filter_cons_of_neg (by simp [Command.onRoutes, Command.slot]),
      hbody, filter_cons_of_neg (by decide), List.filter_nil, List.append_nil]
  · rw [List.append_nil, filter_cons_of_neg (by decide),
      filter_cons_of_neg (by simp [Command.onRoutes, Command.slot]), hbody]

@[simp] theorem Part.all_changes : (Part.all parts).changes = parts.flatMap Part.changes := rfl

@[simp] theorem Part.all_emitted : (Part.all parts).emitted = parts.flatMap Part.emitted := rfl

@[simp] theorem Part.nothing_changes : Part.nothing.changes = [] := rfl

@[simp] theorem Part.nothing_emitted : Part.nothing.emitted = [] := rfl

/-- A part that emits a command lists a change. -/
def Part.Sound (p : Part) : Prop := p.emitted ≠ [] → ∃ change ∈ p.changes, change.action ≠ .keep

theorem Part.sound_all {parts : List Part} (h : ∀ p ∈ parts, p.Sound) : (Part.all parts).Sound := by
  intro hne
  obtain ⟨c, hc⟩ := List.exists_mem_of_ne_nil _ hne
  obtain ⟨p, hp, hc⟩ := mem_flatMap.mp hc
  obtain ⟨change, hchange, hkeep⟩ := h p hp (List.ne_nil_of_mem hc)
  exact ⟨change, mem_flatMap.mpr ⟨p, hp, hchange⟩, hkeep⟩

theorem Part.sound_nothing : Part.nothing.Sound := fun h => absurd rfl h

theorem Part.sound_of_change {p : Part} {change : Change} (hc : change ∈ p.changes) (ha : change.action ≠ .keep) :
    p.Sound := fun _ => ⟨change, hc, ha⟩

/-- Nobody changes an unowned object without consent. -/
def Consent (adopt : Bool) (changes : List Change) : Prop :=
  adopt = true ∨ ∀ change ∈ changes, change.unowned = true → change.action = .keep

theorem consent_of_adoptBlocker (h : adoptBlocker changes adopt = none) : Consent adopt changes := by
  rw [adoptBlocker] at h
  cases adopt with
  | true => exact .inl rfl
  | false =>
    exact .inr (by simpa using h)

theorem Consent.mono {changes' : List Change} (h : Consent adopt changes) (hsub : ∀ c ∈ changes', c ∈ changes) :
    Consent adopt changes' := h.imp_right fun h c hc => h c (hsub c hc)

theorem filterRemoval_eq : ∃ identity, filterRemoval netdev pref entries = [.filterDel netdev pref identity] := by
  unfold filterRemoval
  split
  · exact ⟨_, rfl⟩
  · exact ⟨_, rfl⟩

variable {netdev : String}

theorem filterPart_sound {planned : Option RelayFilter} : (filterPart netdev pref planned entries).Sound := by
  cases planned with
  | none =>
    simp only [filterPart]
    split_ifs with hempty
    · exact Part.sound_nothing
    · exact Part.sound_of_change (mem_singleton.mpr rfl) nofun
  | some =>
    simp only [filterPart]
    split_ifs with hkept hempty
    · exact fun h => absurd rfl h
    · exact Part.sound_of_change (mem_singleton.mpr rfl) nofun
    · exact Part.sound_of_change (mem_singleton.mpr rfl) nofun

/-- A part of the filters deletes at its preference and adds planned filters. -/
theorem mem_filterPart {planned : Option RelayFilter} (h : c ∈ (filterPart netdev pref planned entries).emitted) :
    (∃ identity, c = .filterDel netdev pref identity) ∨ ∃ f, c = .filterAdd f := by
  obtain ⟨identity, hremoval⟩ := filterRemoval_eq
  cases planned with
  | none =>
    simp only [filterPart] at h
    split_ifs at h with hempty
    · simp at h
    · rw [hremoval] at h
      exact .inl ⟨identity, mem_singleton.mp h⟩
  | some f =>
    simp only [filterPart] at h
    split_ifs at h with hkept hempty
    · simp at h
    · simp only [List.nil_append, mem_singleton] at h
      exact .inr ⟨f, h⟩
    rw [hremoval] at h
    simp only [List.singleton_append, mem_cons, List.not_mem_nil, or_false] at h
    exact h.imp (fun h => ⟨identity, h⟩) fun h => ⟨f, h⟩

theorem devicePart_sound : (devicePart state planned netdev).Sound := by
  refine Part.sound_all fun p hp => ?_
  obtain ⟨pref, -, rfl⟩ := List.mem_map.mp hp
  exact filterPart_sound

/-- The comparison of a device names filters of reserved preferences only. -/
theorem mem_devicePart (h : c ∈ (devicePart state planned netdev).emitted) :
    (∃ pref ∈ reservedPrefs, ∃ identity, c = .filterDel netdev pref identity) ∨ ∃ f, c = .filterAdd f := by
  obtain ⟨p, hp, hc⟩ := mem_flatMap.mp h
  obtain ⟨pref, hpref, rfl⟩ := List.mem_map.mp hp
  have hres : pref ∈ reservedPrefs := by
    obtain h | h := List.mem_append.mp hpref
    · exact (mem_filter.mp h).1
    · exact (mem_filter.mp h).1
  exact (mem_filterPart hc).imp_left fun ⟨identity, h⟩ => ⟨pref, hres, identity, h⟩

/-- The filters of distinct preferences are among all filters. -/
theorem sum_atPref_le {prefs : List ℤ} (hnodup : prefs.Nodup) :
    (prefs.map fun pref => (atPref entries pref).length).sum ≤
      (entries.filter fun f => decide (f.pref ∈ prefs)).length := by
  induction prefs with
  | nil => simp
  | cons pref prefs ih =>
    obtain ⟨hfresh, hrest⟩ := List.nodup_cons.mp hnodup
    have hsplit : (entries.filter fun f => decide (f.pref ∈ pref :: prefs)).length =
        (atPref entries pref).length + (entries.filter fun f => decide (f.pref ∈ prefs)).length := by
      clear ih
      induction entries with
      | nil => rfl
      | cons f entries ih =>
        by_cases hf : f.pref = pref
        · simp only [atPref, List.filter_cons, mem_cons, hf, hfresh, decide_true, if_true, true_or,
            decide_false, Bool.false_eq_true, if_false, List.length_cons] at ih ⊢
          omega
        by_cases hin : f.pref ∈ prefs
        · simp only [atPref, List.filter_cons, mem_cons, hf, hin, decide_true, if_true, or_true,
            decide_false, Bool.false_eq_true, if_false, List.length_cons] at ih ⊢
          omega
        simp only [atPref, List.filter_cons, mem_cons, hf, hin, or_false, decide_false,
          Bool.false_eq_true, if_false] at ih ⊢
        omega
    rw [List.map_cons, List.sum_cons, hsplit]
    have := ih hrest
    omega

/-- A script deletes no more filters of a device than it holds reserved ones. -/
theorem removedFilters_le (planned : ℤ → Option RelayFilter) (netdev : String) :
    removedFilters state planned netdev ≤ (state.reservedFilters netdev).length := by
  have hnodup : reservedPrefs.Nodup := by decide
  refine le_trans ?_ ((sum_atPref_le hnodup).trans (List.length_filter_le ..))
  refine List.sum_le_sum fun pref _ => ?_
  dsimp only
  split_ifs
  · exact Nat.zero_le _
  · exact le_rfl

/-- A removed qdisc holds reserved filters only. -/
theorem reserved_of_qdiscRemoved {needed : String → Bool} {removed : String → ℕ} (h : qdiscRemoved state needed removed netdev = true)
    (hle : removed netdev ≤ (state.reservedFilters netdev).length) : ∀ f ∈ state.filters netdev, f.reserved = true := by
  simp only [qdiscRemoved, Bool.and_eq_true, decide_eq_true_eq] at h
  have hlength : (state.reservedFilters netdev).length = (state.filters netdev).length :=
    le_antisymm (List.length_filter_le ..) (h.1.2.trans hle)
  exact List.length_filter_eq_length_iff.mp hlength

end SparkRing.Relay
