import SparkRing.ArenaSession

/-!
# What a kernel has released

A kernel releases the phases of its op one after another and then finishes it.
Its doorbells name the newest op of each phase it released, an op word stays until
the kernel writes the one two ops later, and a descriptor never changes once it is
written. What is released stays released.
-/

namespace SparkRing.ArenaKernel

open ArenaSession ArenaPlan Function

variable {c : Config} {P : Program c} {r m k : ℕ} {d e : Device} {seen : List (ℕ × ℕ)}

/-- Phases of the running op that the kernel released. -/
def rung (d : Device) : ℕ :=
  match d.kernel with
  | .waiting k _ => k + 1
  | _ => 0

/-- Newest op whose op word the kernel wrote. -/
def written (d : Device) : ℕ :=
  match d.kernel with
  | .staged | .waiting .. => d.current
  | _ => d.epoch

/-- The kernel finished an op or passed the waits of its first `k` phases, and rang
the next. -/
def Passed (d : Device) (m k : ℕ) : Prop := m ≤ d.epoch ∨ m = d.current ∧ k < rung d

/-- The kernel released phase `k` of op `m`. -/
structure Rang (P : Program c) (d : Device) (m k : ℕ) : Prop where
  /-- Ops are numbered from 1. -/
  pos : 1 ≤ m
  phase : k < phases c (P.op m)
  /-- The kernel came that far. -/
  passed : Passed d m k

/-- The kernel wrote the descriptor of phase `k` of op `m`. -/
def Announced (P : Program c) (d : Device) (m k : ℕ) : Prop :=
  Rang P d m k ∨ k = 0 ∧ 1 ≤ m ∧ m ≤ written d

/-- What holds of a kernel and its control words. -/
structure KernelInv (P : Program c) (r : ℕ) (d : Device) : Prop where
  /-- No more phases are released than the op has. -/
  rung_le : rung d ≤ phases c (P.op d.current)
  /-- The doorbell names the newest op whose first phase was released. -/
  doorbell : d.doorbell = if rung d = 0 then d.epoch else d.current
  /-- A phase doorbell names the newest op of that phase. -/
  rang_le : ∀ k, 1 ≤ k → ∀ m, Rang P d m k → m ≤ d.phaseDoorbell k
  /-- A phase doorbell that rang names an op of which that phase was released. -/
  rang_of : ∀ k, 1 ≤ k → d.phaseDoorbell k ≠ 0 → Rang P d (d.phaseDoorbell k) k
  /-- The two newest op words are in their slots. -/
  opWord : ∀ m, 1 ≤ m → m ≤ written d → written d ≤ m + 1 → d.opWord (m % slots) = (P.op m).word
  descriptor : ∀ m k, Announced P d m k → (P.op m).code = .described →
    d.descriptor k = ArenaPlan.descriptor c r k

theorem phases_pos (P : Program c) (m : ℕ) : 0 < phases c (P.op m) := by
  simpa using (schedule (P.op m) (P.admitted m)).phases_pos

theorem written_le (d : Device) : d.epoch ≤ written d ∧ written d ≤ d.epoch + 1 := by
  have hcurrent : d.current = d.epoch + 1 := rfl
  unfold written
  split <;> omega

theorem written_of_rung (h : 0 < rung d) : written d = d.current := by
  unfold rung at h
  unfold written
  split at h
  case h_1 hk => rw [hk]
  case h_2 => exact absurd h (Nat.lt_irrefl 0)

/-- A released phase is one of a finished op or of the running one. -/
theorem Rang.le (h : Rang P d m k) : m ≤ d.epoch + 1 := by
  rcases h.passed with hm | ⟨hm, -⟩
  · omega
  · exact hm.le

/-- The op word of a released phase was written. -/
theorem Rang.le_written (h : Rang P d m k) : m ≤ written d := by
  rcases h.passed with hm | ⟨hm, hk⟩
  · exact hm.trans (written_le d).1
  · rw [written_of_rung (by omega)]
    exact hm.le

/-- A released op is not past the doorbell. -/
theorem KernelInv.rang_doorbell (h : KernelInv P r d) (hr : Rang P d m 0) : m ≤ d.doorbell := by
  rw [h.doorbell]
  rcases hr.passed with hm | ⟨hm, hk⟩
  · have hcurrent : d.current = d.epoch + 1 := rfl
    split <;> omega
  · rw [if_neg (by omega)]
    exact hm.le

/-- Every op up to the doorbell had its first phase released. -/
theorem KernelInv.rang_of_le_doorbell (h : KernelInv P r d) (hm : 1 ≤ m) (hle : m ≤ d.doorbell) : Rang P d m 0 := by
  refine ⟨hm, phases_pos P m, ?_⟩
  rw [h.doorbell] at hle
  split at hle
  case isTrue => exact .inl hle
  case isFalse hne =>
    rcases Nat.lt_or_ge d.epoch m with hlt | hge
    · exact .inr ⟨by simp only [Device.current] at hle ⊢; omega, by omega⟩
    · exact .inl hge

theorem KernelInv.doorbell_le (h : KernelInv P r d) : d.doorbell ≤ d.epoch + 1 := by
  have hcurrent : d.current = d.epoch + 1 := rfl
  rw [h.doorbell]
  split <;> omega

/-- What is never taken back: released phases and doorbells only grow. -/
structure Grown (P : Program c) (d e : Device) : Prop where
  /-- Finished ops stay finished. -/
  epoch : d.epoch ≤ e.epoch
  /-- Waits passed stay passed. -/
  passed : ∀ m k, k < phases c (P.op m) → Passed d m k → Passed e m k
  doorbell : d.doorbell ≤ e.doorbell
  phaseDoorbell : ∀ k, d.phaseDoorbell k ≤ e.phaseDoorbell k

theorem Grown.refl (d : Device) : Grown P d d := ⟨le_rfl, fun _ _ _ h => h, le_rfl, fun _ => le_rfl⟩

theorem Grown.rang (g : Grown P d e) (h : Rang P d m k) : Rang P e m k :=
  ⟨h.pos, h.phase, g.passed m k h.phase h.passed⟩

theorem initial_inv : KernelInv P r Rank.initial.device := by
  refine ⟨Nat.zero_le _, rfl, ?_, ?_, ?_, ?_⟩
  · intro k _ m hm
    have hle : m ≤ 0 := by simpa [Passed, rung, Rank.initial] using hm.passed
    exact hle
  · intro k _ h
    exact absurd rfl h
  · intro m hm hle
    have hle' : m ≤ 0 := hle
    omega
  rintro m k (hm | ⟨-, hm, hle⟩)
  · have hpos := hm.pos
    have hle : m ≤ 0 := by simpa [Passed, rung, Rank.initial] using hm.passed
    omega
  · have hle' : m ≤ 0 := hle
    omega

/-- A step that releases nothing: the control words stay. -/
theorem KernelInv.quiet (h : KernelInv P r d) (hepoch : e.epoch = d.epoch) (hrung : rung e = rung d)
    (hwritten : written e = written d) (hd : e.doorbell = d.doorbell) (ho : e.opWord = d.opWord)
    (hp : e.phaseDoorbell = d.phaseDoorbell) (hs : e.descriptor = d.descriptor) : KernelInv P r e ∧ Grown P d e := by
  have hcurrent : e.current = d.current := congrArg (· + 1) hepoch
  have hpassed : ∀ m k, Passed e m k ↔ Passed d m k := by
    intro m k
    simp only [Passed, hepoch, hcurrent, hrung]
  have hrang : ∀ m k, Rang P e m k ↔ Rang P d m k := fun m k =>
    ⟨fun g => ⟨g.pos, g.phase, (hpassed m k).mp g.passed⟩, fun g => ⟨g.pos, g.phase, (hpassed m k).mpr g.passed⟩⟩
  refine ⟨⟨?_, ?_, ?_, ?_, ?_, ?_⟩, hepoch.ge, fun m k _ => (hpassed m k).mpr, hd.ge, fun k => by rw [hp]⟩
  · rw [hrung, hcurrent]
    exact h.rung_le
  · rw [hd, hrung, hepoch, hcurrent]
    exact h.doorbell
  · intro k hk m hm
    rw [hp]
    exact h.rang_le k hk m ((hrang m k).mp hm)
  · intro k hk hne
    rw [hp] at hne ⊢
    exact (hrang _ k).mpr (h.rang_of k hk hne)
  · rw [hwritten, ho]
    exact h.opWord
  intro m k ha
  rw [hs]
  refine h.descriptor m k ?_
  rcases ha with ha | ha
  · exact .inl ((hrang m k).mp ha)
  · exact .inr (hwritten ▸ ha)

theorem KernelInv.launch (h : KernelInv P r d) (hs : d.launch = some e) : KernelInv P r e ∧ Grown P d e := by
  unfold Device.launch at hs
  split at hs
  case h_1 hk =>
    cases hs
    exact h.quiet rfl (by simp [rung, hk]) (by simp [written, hk]) rfl rfl rfl rfl
  case h_2 => cases hs

theorem KernelInv.see {flags : ℕ → ℕ} {q lane : ℕ} (h : KernelInv P r d)
    (hs : d.see P r flags q lane = some e) : KernelInv P r e ∧ Grown P d e := by
  unfold Device.see at hs
  split at hs
  case h_1 k seen hk =>
    obtain ⟨-, rfl⟩ := Option.ite_some_none_eq_some.mp hs
    exact h.quiet rfl (by simp [rung, hk]) (by simp [written, hk, Device.current]) rfl rfl rfl rfl
  case h_2 => cases hs

/-- The descriptor a kernel writes is the one its phase always has. -/
theorem describe_eq (j : ℕ) {k : ℕ} (hold : k ≠ j → (P.op m).code = .described → d.descriptor k = ArenaPlan.descriptor c r k)
    (hnew : k = j → m = d.current ∨ d.descriptor k = ArenaPlan.descriptor c r k)
    (hcode : (P.op m).code = .described) : d.describe P r j k = ArenaPlan.descriptor c r k := by
  unfold Device.describe
  split
  case isTrue =>
    rcases Nat.decEq k j with hne | heq
    · rw [update_of_ne hne]
      exact hold hne hcode
    · subst heq
      rw [update_self]
  case isFalse hcur =>
    rcases Nat.decEq k j with hne | heq
    · exact hold hne hcode
    rcases hnew heq with hm | hd
    · exact absurd (hm ▸ hcode) hcur
    · exact hd

section

variable (h : KernelInv P r d)

include h

theorem KernelInv.writeOpWord (hs : d.writeOpWord P r = some e) : KernelInv P r e ∧ Grown P d e := by
  unfold Device.writeOpWord at hs
  split at hs
  case h_2 => cases hs
  case h_1 hk =>
    cases hs
    have hrung : rung d = 0 := by simp [rung, hk]
    have hwritten : written d = d.epoch := by simp [written, hk]
    have hrang : ∀ {m k}, Rang P { d with
        kernel := .staged
        opWord := update d.opWord (d.current % slots) (P.op d.current).word
        descriptor := d.describe P r 0 } m k → Rang P d m k := by
      intro m k hm
      refine ⟨hm.pos, hm.phase, ?_⟩
      rcases hm.passed with hle | ⟨-, hlt⟩
      · exact .inl hle
      · exact absurd hlt (Nat.not_lt_zero _)
    refine ⟨⟨Nat.zero_le _, ?_, fun k hk m hm => h.rang_le k hk m (hrang hm), ?_, ?_, ?_⟩, le_rfl, ?_, le_rfl,
      fun _ => le_rfl⟩
    · have := h.doorbell
      rwa [if_pos hrung] at this
    · intro k hk hne
      have g := h.rang_of k hk hne
      refine ⟨g.pos, g.phase, ?_⟩
      rcases g.passed with hle | ⟨-, hlt⟩
      · exact .inl hle
      · omega
    · intro m hm hle hge
      have hle' : m ≤ d.epoch + 1 := hle
      have hge' : d.epoch + 1 ≤ m + 1 := hge
      rcases Nat.lt_or_ge d.epoch m with hlt | hge
      · have hm' : m = d.current := by simp only [Device.current]; omega
        rw [hm']
        exact update_self ..
      have hne : m % slots ≠ d.current % slots := by
        simp only [slots, Device.current]
        omega
      have hold := h.opWord m hm (by omega) (by omega)
      simpa only [update_of_ne hne] using hold
    · intro m k ha hcode
      have hcases : Announced P d m k ∨ k = 0 ∧ m = d.current := by
        rcases ha with ha | ⟨hk0, hm, hle⟩
        · exact .inl (.inl (hrang ha))
        have hle' : m ≤ d.epoch + 1 := hle
        rcases Nat.lt_or_ge d.epoch m with hlt | hge
        · exact .inr ⟨hk0, by simp only [Device.current]; omega⟩
        · exact .inl (.inr ⟨hk0, hm, by omega⟩)
      rcases hcases with hold | ⟨hk0, hm⟩
      · have hd := h.descriptor m k hold hcode
        exact describe_eq 0 (fun _ _ => hd) (fun _ => .inr hd) hcode
      · exact describe_eq 0 (fun hne => absurd hk0 hne) (fun _ => .inl hm) hcode
    · rintro m k - (hle | ⟨-, hlt⟩)
      · exact .inl hle
      · omega

theorem KernelInv.ring (hs : d.ring = some e) : KernelInv P r e ∧ Grown P d e := by
  unfold Device.ring at hs
  split at hs
  case h_2 => cases hs
  case h_1 hk =>
    cases hs
    have hrung : rung d = 0 := by simp [rung, hk]
    have hwritten : written d = d.current := by simp [written, hk]
    have hrang : ∀ {m k}, Rang P { d with kernel := .waiting 0 [], doorbell := d.current } m k →
        Rang P d m k ∨ k = 0 ∧ m = d.current := by
      intro m k hm
      rcases hm.passed with hle | ⟨heq, hlt⟩
      · exact .inl ⟨hm.pos, hm.phase, .inl hle⟩
      · have hlt' : k < 1 := hlt
        exact .inr ⟨by omega, heq⟩
    refine ⟨⟨phases_pos P _, rfl, ?_, ?_, ?_, ?_⟩, le_rfl, ?_, ?_, fun _ => le_rfl⟩
    · intro k hk m hm
      rcases hrang hm with hold | ⟨hk0, -⟩
      · exact h.rang_le k hk m hold
      · omega
    · intro k hk hne
      have g := h.rang_of k hk hne
      refine ⟨g.pos, g.phase, ?_⟩
      rcases g.passed with hle | ⟨-, hlt⟩
      · exact .inl hle
      · omega
    · intro m hm hle hge
      exact h.opWord m hm (by rw [hwritten]; exact hle) (by rw [hwritten]; exact hge)
    · intro m k ha
      refine h.descriptor m k ?_
      rcases ha with ha | ⟨hk0, hm, hle⟩
      · rcases hrang ha with hold | ⟨hk0, hm⟩
        · exact .inl hold
        · exact .inr ⟨hk0, ha.pos, by rw [hwritten, hm]⟩
      · exact .inr ⟨hk0, hm, by rw [hwritten]; exact hle⟩
    · rintro m k - (hle | ⟨-, hlt⟩)
      · exact .inl hle
      · omega
    · have := h.doorbell_le
      simpa only [Device.current] using this

/-- A kernel that passed a wait rings the next phase. -/
theorem KernelInv.next (hk : d.kernel = .waiting k seen)
    (hlt : k + 1 < phases c (P.op d.current)) :
    KernelInv P r { d with
      kernel := .waiting (k + 1) []
      phaseDoorbell := update d.phaseDoorbell (k + 1) d.current
      descriptor := d.describe P r (k + 1) } ∧
    Grown P d { d with
      kernel := .waiting (k + 1) []
      phaseDoorbell := update d.phaseDoorbell (k + 1) d.current
      descriptor := d.describe P r (k + 1) } := by
  have hrung : rung d = k + 1 := by simp [rung, hk]
  have hwritten : written d = d.current := by simp [written, hk]
  have hrang : ∀ {m j}, Rang P { d with
      kernel := .waiting (k + 1) []
      phaseDoorbell := update d.phaseDoorbell (k + 1) d.current
      descriptor := d.describe P r (k + 1) } m j → Rang P d m j ∨ j = k + 1 ∧ m = d.current := by
    intro m j hm
    rcases hm.passed with hle | ⟨heq, hlt⟩
    · exact .inl ⟨hm.pos, hm.phase, .inl hle⟩
    have hlt' : j < k + 2 := hlt
    rcases Nat.lt_or_ge j (k + 1) with hj | hj
    · exact .inl ⟨hm.pos, hm.phase, .inr ⟨heq, by omega⟩⟩
    · exact .inr ⟨by omega, heq⟩
  have hpassed : ∀ {m j}, Passed d m j → Passed { d with
      kernel := .waiting (k + 1) []
      phaseDoorbell := update d.phaseDoorbell (k + 1) d.current
      descriptor := d.describe P r (k + 1) } m j := by
    rintro m j (hle | ⟨heq, hj⟩)
    · exact .inl hle
    refine .inr ⟨heq, ?_⟩
    change j < k + 2
    omega
  refine ⟨⟨hlt, ?_, ?_, ?_, ?_, ?_⟩, le_rfl, fun m j _ => hpassed, le_rfl, ?_⟩
  · have := h.doorbell
    rwa [if_neg (by omega)] at this
  · intro j hj m hm
    rcases Nat.decEq j (k + 1) with hne | heq
    · rcases hrang hm with hold | ⟨hj', -⟩
      · simpa only [update_of_ne hne] using h.rang_le j hj m hold
      · exact absurd hj' hne
    subst heq
    simp only [update_self]
    exact hm.le
  · intro j hj hne
    rcases Nat.decEq j (k + 1) with hj' | heq
    · simp only [update_of_ne hj'] at hne ⊢
      have g := h.rang_of j hj hne
      exact ⟨g.pos, g.phase, hpassed g.passed⟩
    subst heq
    simp only [update_self]
    exact ⟨Nat.succ_pos _, hlt, .inr ⟨rfl, Nat.lt_succ_self _⟩⟩
  · intro m hm hle hge
    exact h.opWord m hm (by rw [hwritten]; exact hle) (by rw [hwritten]; exact hge)
  · intro m j ha hcode
    have hcases : Announced P d m j ∨ j = k + 1 ∧ m = d.current := by
      rcases ha with ha | ⟨hj, hm, hle⟩
      · rcases hrang ha with hold | hnew
        · exact .inl (.inl hold)
        · exact .inr hnew
      · exact .inl (.inr ⟨hj, hm, by rw [hwritten]; exact hle⟩)
    rcases hcases with hold | ⟨hj, hm⟩
    · have hd := h.descriptor m j hold hcode
      exact describe_eq (k + 1) (fun _ _ => hd) (fun _ => .inr hd) hcode
    · exact describe_eq (k + 1) (fun hne => absurd hj hne) (fun _ => .inl hm) hcode
  · intro j
    rcases Nat.decEq j (k + 1) with hne | heq
    · simp only [update_of_ne hne, le_refl]
    subst heq
    simp only [update_self]
    rcases Nat.eq_zero_or_pos (d.phaseDoorbell (k + 1)) with hz | hpos
    · omega
    · exact (h.rang_of (k + 1) (by omega) (by omega)).le

/-- A kernel that passed its last wait finishes its op. -/
theorem KernelInv.finish (hk : d.kernel = .waiting k seen)
    (hge : ¬k + 1 < phases c (P.op d.current)) :
    KernelInv P r { d with kernel := .idle, epoch := d.current } ∧
      Grown P d { d with kernel := .idle, epoch := d.current } := by
  have hrung : rung d = k + 1 := by simp [rung, hk]
  have hwritten : written d = d.current := by simp [written, hk]
  have hrang : ∀ {m j}, Rang P { d with kernel := .idle, epoch := d.current } m j → Rang P d m j := by
    intro m j hm
    refine ⟨hm.pos, hm.phase, ?_⟩
    rcases hm.passed with hle | ⟨-, hlt⟩
    · rcases Nat.lt_or_ge d.epoch m with hlt | hle'
      · have heq : m = d.current := by
          have hle' : m ≤ d.epoch + 1 := hle
          simp only [Device.current]
          omega
        have hj : j < phases c (P.op d.current) := heq ▸ hm.phase
        exact .inr ⟨heq, by omega⟩
      · exact .inl hle'
    · exact absurd hlt (Nat.not_lt_zero _)
  have hpassed : ∀ {m j}, Passed d m j → Passed { d with kernel := .idle, epoch := d.current } m j := by
    rintro m j (hle | ⟨heq, -⟩)
    · exact .inl (hle.trans (Nat.le_succ _))
    · exact .inl heq.le
  refine ⟨⟨Nat.zero_le _, ?_, fun j hj m hm => h.rang_le j hj m (hrang hm), ?_, ?_, ?_⟩, Nat.le_succ _,
    fun m j _ => hpassed, le_rfl, fun _ => le_rfl⟩
  · have := h.doorbell
    rwa [if_neg (by omega)] at this
  · intro j hj hne
    have g := h.rang_of j hj hne
    exact ⟨g.pos, g.phase, hpassed g.passed⟩
  · intro m hm hle hge
    exact h.opWord m hm (by rw [hwritten]; exact hle) (by rw [hwritten]; exact hge)
  intro m j ha
  refine h.descriptor m j ?_
  rcases ha with ha | ⟨hj, hm, hle⟩
  · exact .inl (hrang ha)
  · exact .inr ⟨hj, hm, by rw [hwritten]; exact hle⟩

theorem KernelInv.advance (hs : d.advance P r = some e) : KernelInv P r e ∧ Grown P d e := by
  unfold Device.advance at hs
  split at hs
  case h_2 => cases hs
  case h_1 k seen hk =>
    obtain ⟨-, hs⟩ := Option.ite_none_right_eq_some.mp hs
    split at hs
    case isTrue hlt =>
      cases hs
      exact h.next hk hlt
    case isFalse hge =>
      cases hs
      exact h.finish hk hge

end

/-- Every step of a kernel keeps its control words in order and releases more. -/
theorem KernelInv.act {s : Rank} {a : Act} (h : KernelInv P r s.device)
    (hs : s.kernelAct P r a = some e) : KernelInv P r e ∧ Grown P s.device e := by
  cases a with
  | launch => exact h.launch hs
  | writeOpWord => exact h.writeOpWord hs
  | ring => exact h.ring hs
  | see => exact h.see hs
  | advance => exact h.advance hs
  | poll | postData | postFlag => cases hs

end SparkRing.ArenaKernel
