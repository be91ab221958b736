import SparkRing.ArenaPlan

/-!
# What a progress thread remembers of its ops

To prove writes delivered from a peer's flags, the progress thread keeps the codes
of its newest ops and, for every flag namespace and slot, the two newest ops in
which every peer wrote that flag line, or may have. Ops are indexed in 64 bits; a
line is trusted only while such an op is recent.
-/

namespace SparkRing.OpNotes

open SequenceWord ArenaPlan Function

/-- The newest number from 1 to `n` with a property, or 0. -/
def newestOp (p : ℕ → Bool) : ℕ → ℕ
  | 0 => 0
  | n + 1 => if p (n + 1) then n + 1 else newestOp p n

section NewestOp

variable {p q : ℕ → Bool} {i n : ℕ} {codes : ℕ → OpCode}

theorem newestOp_le : newestOp p n ≤ n := by
  induction n with
  | zero => exact le_rfl
  | succ n ih =>
    simp only [newestOp]
    split
    · exact le_rfl
    · omega

/-- A newest number has the property. -/
theorem newestOp_spec (h : newestOp p n ≠ 0) : p (newestOp p n) = true := by
  induction n with
  | zero => exact absurd rfl h
  | succ n ih =>
    simp only [newestOp] at h ⊢
    split
    case isTrue hp => exact hp
    case isFalse hp =>
      rw [if_neg hp] at h
      exact ih h

/-- No number with the property is newer. -/
theorem le_newestOp (hi : 1 ≤ i) (hin : i ≤ n) (h : p i = true) : i ≤ newestOp p n := by
  induction n with
  | zero => omega
  | succ n ih =>
    simp only [newestOp]
    split
    case isTrue => exact hin
    case isFalse hp =>
      have hne : i ≠ n + 1 := fun heq => hp (heq ▸ h)
      exact ih (by omega)

theorem newestOp_congr (h : ∀ i, 1 ≤ i → i ≤ n → p i = q i) : newestOp p n = newestOp q n := by
  induction n with
  | zero => rfl
  | succ n ih =>
    simp only [newestOp, h (n + 1) (by omega) le_rfl]
    rw [ih fun i hi hin => h i hi (by omega)]

end NewestOp

/-- Ops whose codes are remembered. -/
def opHistory : ℕ := 8

/-- Values of an op index. -/
def indexModulus : ℕ := 2 ^ 64

/-- Op indices of equal value. -/
def sameIndex (a b : ℕ) : Bool := a % indexModulus == b % indexModulus

/-- What a progress thread remembers of the ops it posted. -/
structure Notes where
  /-- The newest ops, by their sequence modulo 8. -/
  opSeq : ℕ → ℕ
  opCode : ℕ → OpCode
  /-- Ops posted. -/
  opIndex : ℕ
  /-- The two newest ops that had every peer write a namespace's line of a slot. -/
  lineEvery : ℕ → ℕ → ℕ × ℕ
  /-- The two newest ops in which a peer may have written it. -/
  lineAny : ℕ → ℕ → ℕ × ℕ

/-- Before the first op. -/
def Notes.initial : Notes := ⟨fun _ => 0, fun _ => .oneshot, 0, fun _ _ => (0, 0), fun _ _ => (0, 0)⟩

/-- Every peer writes its flag of a namespace in an op. -/
def everyPeer (ns : ℕ) (code : OpCode) : Bool :=
  decide (code = .twoshot) || decide (ns = 0) && decide (code ≠ .described)

/-- A peer may write its flag of a namespace in an op. -/
def anyPeer (ns : ℕ) (code : OpCode) : Bool := everyPeer ns code || decide (code = .described)

/-- One more op at a line. -/
def noteLine (line : ℕ × ℕ) (index : ℕ) : ℕ × ℕ := (index, line.1)

/-- The lines after an op that some peers write a flag of. -/
def noteLines (writes : ℕ → OpCode → Bool) (lines : ℕ → ℕ → ℕ × ℕ) (index seq : ℕ) (code : OpCode) :
    ℕ → ℕ → ℕ × ℕ :=
  fun ns slot => if slot = seq % slots ∧ writes ns code then noteLine (lines ns slot) index else lines ns slot

/-- Record an op for the flag lines its peers write. -/
def Notes.noteOpLines (n : Notes) (seq : ℕ) (code : OpCode) : Notes :=
  { n with
    opIndex := n.opIndex + 1
    lineEvery := noteLines everyPeer n.lineEvery (n.opIndex + 1) seq code
    lineAny := noteLines anyPeer n.lineAny (n.opIndex + 1) seq code }

/-- What is remembered once the first phase of an op begins. -/
def Notes.postFirstPhase (n : Notes) (seq : ℕ) (code : OpCode) : Notes :=
  { n with
    opSeq := Function.update n.opSeq (seq % opHistory) seq
    opCode := Function.update n.opCode (seq % opHistory) code }.noteOpLines seq code

/-- The newest op of a line before the current one. -/
def newestBefore (line : ℕ × ℕ) (current : ℕ) : ℕ := if sameIndex line.1 current then line.2 else line.1

/-- A flag line of a peer holds a recent flag: an op of the last 2^31 had every peer
write it, or no earlier op may have and it is not the zero it began with. -/
def Notes.flagLineTrusted (n : Notes) (ns slot flag : ℕ) : Bool :=
  let every := newestBefore (n.lineEvery ns slot) n.opIndex
  if !sameIndex every 0 then
    decide ((n.opIndex + (indexModulus - every % indexModulus)) % indexModulus < 2 ^ 31)
  else !sameWord flag 0 && sameIndex (newestBefore (n.lineAny ns slot) n.opIndex) 0

/-- A flag names one of a rank's recent ops, or the next. -/
def recent (lastSeq flag : ℕ) : Bool :=
  !(decide (1 < gap flag lastSeq) || decide (gap flag lastSeq < -opHistory))

/-- The newer of two flags of a peer that name a recent op. -/
def newestFlag (lastSeq a b : ℕ) : Option ℕ :=
  if recent lastSeq a then
    if recent lastSeq b && decide (0 < gap b a) then some b else some a
  else if recent lastSeq b then some b else none

/-- A sequence is the one of a remembered two-shot op. -/
def Notes.opIsTwoshot (n : Notes) (seq : ℕ) : Bool :=
  sameWord (n.opSeq (seq % opHistory)) seq && decide (n.opCode (seq % opHistory) = .twoshot)

/-- An op of a slot in which some peers write a namespace's flag. -/
def wrote (writes : ℕ → OpCode → Bool) (codes : ℕ → OpCode) (ns slot i : ℕ) : Bool :=
  decide (i % slots = slot) && writes ns (codes i)

/-- A line names the newest two ops noted for it. -/
def NewestTwo (p : ℕ → Bool) (n : ℕ) (line : ℕ × ℕ) : Prop :=
  line = (newestOp p n, newestOp p (newestOp p n - 1))

/-- The notes name the ops up to the current one, which have the given codes. -/
structure Records (codes : ℕ → OpCode) (n : Notes) : Prop where
  opSeq : ∀ j, n.opSeq j = newestOp (fun i => decide (i % opHistory = j)) n.opIndex
  opCode : ∀ j, n.opSeq j ≠ 0 → n.opCode j = codes (n.opSeq j)
  /-- The newest two ops that had every peer write a line. -/
  every : ∀ ns slot, NewestTwo (wrote everyPeer codes ns slot) n.opIndex (n.lineEvery ns slot)
  any : ∀ ns slot, NewestTwo (wrote anyPeer codes ns slot) n.opIndex (n.lineAny ns slot)

theorem Records.initial (codes : ℕ → OpCode) : Records codes Notes.initial :=
  ⟨fun _ => rfl, fun _ h => absurd rfl h, fun _ _ => rfl, fun _ _ => rfl⟩

theorem newestTwo_noteLines {writes : ℕ → OpCode → Bool} {lines : ℕ → ℕ → ℕ × ℕ}
    {ns slot n : ℕ} (h : NewestTwo (wrote writes codes ns slot) n (lines ns slot)) :
    NewestTwo (wrote writes codes ns slot) (n + 1) (noteLines writes lines (n + 1) (n + 1) (codes (n + 1)) ns slot) := by
  unfold NewestTwo noteLines at *
  by_cases hp : slot = (n + 1) % slots ∧ writes ns (codes (n + 1)) = true
  · have hnoted : wrote writes codes ns slot (n + 1) = true := by
      simp only [wrote, hp.1, hp.2, decide_true, Bool.and_self]
    rw [if_pos hp]
    simp only [newestOp, hnoted, if_true, noteLine, h, Nat.add_sub_cancel]
  have hnoted : wrote writes codes ns slot (n + 1) = false := by
    simp only [wrote, Bool.and_eq_false_iff, decide_eq_false_iff_not]
    by_cases hs : (n + 1) % slots = slot
    · exact .inr (by simpa [hs] using hp)
    · exact .inl hs
  rw [if_neg hp]
  simp only [newestOp, hnoted, Bool.false_eq_true, if_false]
  exact h

theorem Records.postFirstPhase {n : Notes} (h : Records codes n) :
    Records codes (n.postFirstPhase (n.opIndex + 1) (codes (n.opIndex + 1))) := by
  refine ⟨?_, ?_, fun ns slot => newestTwo_noteLines (h.every ns slot),
    fun ns slot => newestTwo_noteLines (h.any ns slot)⟩
  · intro j
    simp only [Notes.postFirstPhase, Notes.noteOpLines, newestOp, decide_eq_true_eq]
    split
    case isTrue hj => rw [hj, update_self]
    case isFalse hj =>
      rw [update_of_ne (Ne.symm hj)]
      exact h.opSeq j
  intro j hne
  simp only [Notes.postFirstPhase, Notes.noteOpLines] at hne ⊢
  rcases Nat.decEq j ((n.opIndex + 1) % opHistory) with hj | rfl
  · rw [update_of_ne hj] at hne ⊢
    rw [update_of_ne hj]
    exact h.opCode j hne
  · rw [update_self, update_self]

theorem Records.congr {codes' : ℕ → OpCode} {n : Notes} (h : Records codes n)
    (heq : ∀ i, 1 ≤ i → i ≤ n.opIndex → codes i = codes' i) : Records codes' n := by
  have hnoted : ∀ writes ns slot m, m ≤ n.opIndex →
      newestOp (wrote writes codes ns slot) m = newestOp (wrote writes codes' ns slot) m := by
    intro writes ns slot m hm
    refine newestOp_congr fun i hi hin => ?_
    simp only [wrote, heq i hi (by omega)]
  refine ⟨h.opSeq, ?_, ?_, ?_⟩
  · intro j hne
    have hle : n.opSeq j ≤ n.opIndex := by
      rw [h.opSeq]
      exact newestOp_le
    rw [h.opCode j hne, heq _ (by omega) hle]
  · intro ns slot
    have h' := h.every ns slot
    have hle : newestOp (wrote everyPeer codes ns slot) n.opIndex ≤ n.opIndex := newestOp_le
    unfold NewestTwo at h' ⊢
    rw [h', ← hnoted _ _ _ _ le_rfl, ← hnoted _ _ _ _ (by omega)]
  intro ns slot
  have h' := h.any ns slot
  have hle : newestOp (wrote anyPeer codes ns slot) n.opIndex ≤ n.opIndex := newestOp_le
  unfold NewestTwo at h' ⊢
  rw [h', ← hnoted _ _ _ _ le_rfl, ← hnoted _ _ _ _ (by omega)]

/-- Unless it is 2^64 ops old, the newest op before the current one is found. -/
theorem newestBefore_eq {p : ℕ → Bool} {n : ℕ} {line : ℕ × ℕ} (h : NewestTwo p n line)
    (hnear : newestOp p (n - 1) = 0 ∨ n < newestOp p (n - 1) + 2 ^ 64) : newestBefore line n = newestOp p (n - 1) := by
  rw [h]
  unfold newestBefore
  cases n with
  | zero => rfl
  | succ n =>
    rw [Nat.add_sub_cancel] at hnear ⊢
    have hle : newestOp p n ≤ n := newestOp_le
    by_cases hp : p (n + 1) = true
    · simp only [newestOp, hp, if_true, Nat.add_sub_cancel, sameIndex, BEq.rfl]
    simp only [newestOp, hp, Bool.false_eq_true, if_false]
    split
    case isFalse => rfl
    case isTrue hsame =>
      rcases hnear with hz | hlt
      · rw [hz]
        rfl
      · simp only [sameIndex, indexModulus, beq_iff_eq] at hsame
        omega

/-- The notes hold the code of a recent op. -/
theorem Records.opIsTwoshot {n : Notes} (h : Records codes n) {seq : ℕ} (hpos : 1 ≤ seq)
    (hlo : n.opIndex < seq + 2 ^ 31) (hhi : seq < n.opIndex + 2 ^ 31) (htwo : n.opIsTwoshot seq = true) : codes seq = .twoshot := by
  simp only [Notes.opIsTwoshot, Bool.and_eq_true, decide_eq_true_eq] at htwo
  have hseq := h.opSeq (seq % opHistory)
  have hle : n.opSeq (seq % opHistory) ≤ n.opIndex := by
    rw [hseq]
    exact newestOp_le
  have hge : n.opIndex < n.opSeq (seq % opHistory) + opHistory := by
    by_contra hlt
    obtain ⟨i, hi⟩ : ∃ i, i = n.opIndex - (n.opIndex + opHistory - seq % opHistory) % opHistory := ⟨_, rfl⟩
    simp only [opHistory] at hlt hi
    have hmod : i % opHistory = seq % opHistory := by
      simp only [opHistory]
      omega
    have hnew : i ≤ newestOp (fun i => decide (i % opHistory = seq % opHistory)) n.opIndex :=
      le_newestOp (by omega) (by omega) (decide_eq_true hmod)
    rw [← hseq] at hnew
    simp only [opHistory] at hnew
    omega
  have heq : n.opSeq (seq % opHistory) = seq := by
    refine eq_of_sameWord htwo.1 (by omega) ?_
    simp only [opHistory] at hge ⊢
    omega
  have hcode := h.opCode (seq % opHistory) (by omega)
  rw [heq] at hcode
  rw [← hcode]
  exact htwo.2

/-- The newest flag of a peer is one of the two, and recent. -/
theorem newestFlag_cases {lastSeq a b flag : ℕ} (h : newestFlag lastSeq a b = some flag) :
    (flag = a ∨ flag = b) ∧ gap flag lastSeq ≤ 1 ∧ -8 ≤ gap flag lastSeq := by
  have hrecent : ∀ x, recent lastSeq x = true → gap x lastSeq ≤ 1 ∧ -8 ≤ gap x lastSeq := by
    intro x hx
    simp only [recent, Bool.not_eq_true', Bool.or_eq_false_iff, decide_eq_false_iff_not] at hx
    have hlow : (opHistory : ℤ) = 8 := rfl
    omega
  unfold newestFlag at h
  split at h
  case isTrue ha =>
    split at h
    case isTrue hb =>
      cases h
      rw [Bool.and_eq_true] at hb
      exact ⟨.inr rfl, hrecent _ hb.1⟩
    case isFalse =>
      cases h
      exact ⟨.inl rfl, hrecent _ ha⟩
  case isFalse =>
    obtain ⟨hb, rfl⟩ := Option.ite_some_none_eq_some.mp h
    exact ⟨.inr rfl, hrecent _ hb⟩

end SparkRing.OpNotes
