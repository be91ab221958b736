import Mathlib.Data.List.Sort
import SparkRing.TransitionSystem

/-!
# Communicators that share one bootstrap

The ranks of a communicator split it and close it with rounds of the bootstrap's
all-gather. A rank's n-th round meets the n-th round of every other rank, whatever they
are for. Each rank's calls run in threads; the bootstrap's lock admits one of its rounds
at a time, the close lock one close. The communicators have an engine and two or more
ranks; the close of any other one has no rounds.
-/

namespace SparkRing.CommGroup

/-- A 32-bit word. Contributions to a round are words. -/
abbrev Word := BitVec 32

/-- Result of a call. -/
inductive NcclResult where
  | success
  | unhandledCudaError
  | systemError
  | internalError
  | invalidArgument
  | invalidUsage
  | remoteError
  | inProgress
  | timeout
  deriving DecidableEq

namespace NcclResult

/-- Results in the order of their codes. -/
def all : List NcclResult :=
  [success, unhandledCudaError, systemError, internalError, invalidArgument, invalidUsage, remoteError, inProgress, timeout]

def code (result : NcclResult) : Word := BitVec.ofNat 32 (all.idxOf result)

/-- The first failure of two. -/
def first (a b : NcclResult) : NcclResult := if a = success then b else a

end NcclResult

/-- What a round is for. The second round of a split or close names the first one. -/
inductive Kind where
  /-- A split's exchange of colors and keys. -/
  | colors
  /-- A split's exchange of unique IDs. -/
  | ids (colors : ℕ)
  /-- A close's exchange of results. -/
  | first
  /-- A close's last round. -/
  | second (first : ℕ)
  deriving DecidableEq

/-- The round of a close it is, if any. -/
def Kind.closeRound : Kind → Option Bool
  | .colors | .ids _ => none
  | .first => some false
  | .second _ => some true

/-- A round that a rank began. -/
structure Round where
  kind : Kind
  /-- What the rank contributes. -/
  data : List Word
  deriving DecidableEq

/-- A unique ID, of 128 bytes. -/
abbrev UniqueId := { words : List Word // words.length = 32 }

/-- The color of a rank that joins no part. -/
def noColor : Word := -1

/-- A call of a thread after what the thread does on its own. -/
inductive Call where
  | splits (color key : Word)
  /-- A split in its exchange of colors, round `q`. -/
  | colors (color key : Word) (q : ℕ)
  /-- A split before its exchange of IDs. -/
  | grouped (q : ℕ) (members : List ℕ) (rank : Option ℕ)
  /-- A split in its exchange of IDs, round `q'`. -/
  | ids (q q' : ℕ) (members : List ℕ) (rank : Option ℕ) (result : NcclResult)
  /-- A destroy or abort that waits for the calls of other threads. -/
  | disposes (abort : Bool)
  /-- A close that waits for the close lock. -/
  | waits (destroy : Bool)
  /-- A close before its first round. -/
  | synced (destroy : Bool) (result : NcclResult)
  /-- A close in its first round, round `q`. -/
  | first (destroy : Bool) (result : NcclResult) (q : ℕ)
  /-- A close before its second round. -/
  | stopped (destroy : Bool) (result : NcclResult) (q : ℕ)
  /-- A close in its second round, round `q'`. -/
  | second (destroy : Bool) (result : NcclResult) (q q' : ℕ)
  /-- A close that has let go of the close lock. -/
  | closed (destroy : Bool) (result : NcclResult)
  deriving DecidableEq

/-- State of a communicator that finished its initialization. -/
inductive CommState where
  | ready
  | finalized
  | revoked
  | failed
  deriving DecidableEq

/-- A rank's communicator with its bootstrap handle. -/
structure Comm where
  state : CommState
  error : NcclResult
  /-- Calls may find it. -/
  registered : Bool
  /-- Calls that hold a reference. -/
  refs : ℕ
  /-- The close ran or runs. -/
  quiesced : Bool
  closeResult : Option NcclResult
  /-- Thread that holds the close lock. -/
  closing : Option ℕ
  /-- The progress threads stopped. -/
  stopped : Bool
  /-- Rounds the handle began. -/
  rounds : List Round
  /-- Thread that is in a round. -/
  busy : Option ℕ
  /-- A round of the handle failed. -/
  failed : Bool
  threads : ℕ → Option Call
  /-- The two rounds of each split that went on to join its part. -/
  joined : List (ℕ × ℕ)

/-- A communicator just initialized. -/
def Comm.init : Comm where
  state := .ready
  error := .success
  registered := true
  refs := 0
  quiesced := false
  closeResult := none
  closing := none
  stopped := false
  rounds := []
  busy := none
  failed := false
  threads := fun _ => none
  joined := []

/-- The communicators of all ranks. -/
abbrev State := ℕ → Comm

/-- One section of a thread of a rank. A call that is refused changes nothing and is no step. -/
inductive Act where
  | commSplit (a t : ℕ) (color key : Word) (noOutput : Bool)
  /-- A finalize starts; what its wait for the enqueued work returned. -/
  | commFinalize (a t : ℕ) (flushed : NcclResult)
  /-- A destroy or abort starts. -/
  | dispose (a t : ℕ) (abort : Bool)
  /-- A destroy or abort finds no other call. -/
  | alone (a t : ℕ)
  /-- A close takes the close lock; what its wait and the engine report. -/
  | quiesce (a t : ℕ) (synced async : NcclResult)
  /-- A thread begins its next round; the unique ID a split's leader creates, or its failure. -/
  | allgather (a t : ℕ) (created : Except NcclResult UniqueId)
  /-- A round ends well. -/
  | arrives (a t : ℕ)
  /-- A round ends otherwise. -/
  | fails (a t : ℕ)
  /-- A finalize or destroy returns. -/
  | returns (a t : ℕ)
  | asyncError (a : ℕ) (result : NcclResult)
  | revoke (a : ℕ)

namespace Comm

variable (x : Comm)

/-- Set a thread's call. -/
def put (t : ℕ) (call : Option Call) : Comm := { x with threads := Function.update x.threads t call }

/-- Begin a round. -/
def begin (t : ℕ) (kind : Kind) (data : List Word) (call : Call) : Comm :=
  { x.put t (some call) with
    rounds := x.rounds ++ [⟨kind, data⟩]
    busy := some t }

/-- Keep the result of the close and let go of the close lock. -/
def close (t : ℕ) (destroy : Bool) (result : NcclResult) : Comm :=
  { x.put t (some (.closed destroy result)) with
    closeResult := some result
    closing := none
    error := x.error.first result }

/-- A split fails or is done: its reference is dropped. -/
def release (t : ℕ) : Comm := { x.put t none with refs := x.refs - 1 }

end Comm

/-- A word of memory; a word behind the end is not read. -/
def wordAt (all : List Word) (i : ℕ) : Word := all.getD i 0

/-- A rank's result as the first round of a close reads it: a contribution of another length counts as success. -/
def reported (all : List (List Word)) (r : ℕ) : Word :=
  if (all.getD r []).length = 1 then wordAt all.flatten r else 0

/-- Result of a close after its first round. -/
def afterFirst (n : ℕ) (result : NcclResult) (all : List (List Word)) : NcclResult :=
  if result = .success ∧ ∃ r < n, reported all r ≠ NcclResult.success.code then .remoteError else result

/-- A rank of a color comes before another. -/
def before (records : List Word) (a b : ℕ) : Prop :=
  (wordAt records (2 * a + 1)).toInt < (wordAt records (2 * b + 1)).toInt ∨
    wordAt records (2 * a + 1) = wordAt records (2 * b + 1) ∧ a ≤ b

instance (records : List Word) : DecidableRel (before records) := fun _ _ => inferInstanceAs (Decidable (_ ∨ _))

/-- The ranks of a color, by key and then parent rank. -/
def membersOf (n : ℕ) (color : Word) (records : List Word) : List ℕ :=
  ((List.range n).filter fun r => decide (color ≠ noColor ∧ wordAt records (2 * r) = color)).insertionSort (before records)

/-- A split after its exchange of colors; `none` where a record has the wrong length. -/
def afterColors (n me : ℕ) (color : Word) (q : ℕ) (all : List (List Word)) : Option Call :=
  if ∃ r < n, (all.getD r []).length ≠ 2 then none
  else
    let members := membersOf n color all.flatten
    some (.grouped q members (if me ∈ members then some (members.idxOf me) else none))

/-- The bytes of a word in the other order. -/
def swapBytes (w : Word) : Word :=
  w.extractLsb' 0 8 ++ w.extractLsb' 8 8 ++ w.extractLsb' 16 8 ++ w.extractLsb' 24 8

/-- The record of a leader that has no unique ID. -/
def failureRecord (result : NcclResult) : UniqueId :=
  ⟨[0, 0, swapBytes result.code] ++ List.replicate 29 0, by simp⟩

/-- What a rank contributes to the exchange of IDs, and the result it goes on with. -/
def idRecord (rank : Option ℕ) (created : Except NcclResult UniqueId) : UniqueId × NcclResult :=
  if rank = some 0 then
    match created with
    | .ok id => (id, .success)
    | .error result => (failureRecord result, result)
  else (⟨List.replicate 32 0, by simp⟩, .success)

/-- The failure that a leader's record reports. -/
def leaderResult (id : List Word) : NcclResult :=
  if (wordAt id 0).toNat % 256 ≠ 0 then .success
  else ((NcclResult.all.filter fun result => decide (result ≠ .success ∧ result ≠ .inProgress)).find? fun result =>
    decide (result.code = swapBytes (wordAt id 2))).getD .remoteError

/-- Result of a split after its exchange of IDs; `none` where a record has the wrong length. -/
def afterIds (n : ℕ) (members : List ℕ) (rank : Option ℕ) (result : NcclResult) (all : List (List Word)) : Option NcclResult :=
  if ∃ r < n, (all.getD r []).length ≠ 32 then none
  else
    match rank with
    | some (_ + 1) => some (result.first (leaderResult ((all.flatten.drop (32 * members.headD 0)).take 32)))
    | _ => some result

/-- The answer of a round: every rank's contribution, once every rank began it. -/
def answer (n : ℕ) (s : State) (q : ℕ) : Option (List (List Word)) :=
  if ∀ a < n, q < (s a).rounds.length then
    some ((List.range n).map fun a => (((s a).rounds[q]?).map Round.data).getD [])
  else none

/-- A thread begins its next round. A handle on which a round failed refuses it. -/
def allgather (x : Comm) (t : ℕ) (created : Except NcclResult UniqueId) : Option Comm :=
  if x.busy ≠ none then none
  else
    let q := x.rounds.length
    match x.threads t with
    | some (.splits color key) =>
      some (if x.failed then x.release t else x.begin t .colors [color, key] (.colors color key q))
    | some (.grouped q₀ members rank) =>
      let record := idRecord rank created
      some (if x.failed then x.release t
        else x.begin t (.ids q₀) record.1.val (.ids q₀ q members rank record.2))
    | some (.synced destroy result) =>
      some (if x.failed then { x.close t destroy (result.first .remoteError) with stopped := true }
        else x.begin t .first [result.code] (.first destroy result q))
    | some (.stopped destroy result q₀) =>
      some (if x.failed then x.close t destroy (result.first .remoteError)
        else x.begin t (.second q₀) [NcclResult.success.code] (.second destroy result q₀ q))
    | _ => none

/-- A round ends well for a thread: what it does with the answer. -/
def arrives (n me : ℕ) (x : Comm) (t : ℕ) (all : ℕ → Option (List (List Word))) : Option Comm :=
  let x' : Comm := { x with busy := none }
  match x.threads t with
  | some (.colors color _ q) =>
    (all q).map fun all =>
      match afterColors n me color q all with
      | none => x'.release t
      | some call => x'.put t (some call)
  | some (.ids q q' members rank result) =>
    (all q').map fun all =>
      if afterIds n members rank result all = some .success ∧ rank ≠ none then
        { x'.release t with joined := x.joined ++ [(q, q')] }
      else x'.release t
  | some (.first destroy result q) =>
    (all q).map fun all => { x'.put t (some (.stopped destroy (afterFirst n result all) q)) with stopped := true }
  | some (.second destroy result _ q') => (all q').map fun _ => x'.close t destroy result
  | _ => none

/-- A round ends otherwise: its time is over, it is cancelled or the broker is lost. -/
def fails (x : Comm) (t : ℕ) : Option Comm :=
  let x' : Comm := { x with busy := none, failed := true }
  match x.threads t with
  | some (.colors ..) | some (.ids ..) => some (x'.release t)
  | some (.first destroy result _) => some { x'.close t destroy (result.first .remoteError) with stopped := true }
  | some (.second destroy result _ _) => some (x'.close t destroy (result.first .remoteError))
  | _ => none

/-- A close with the close lock: the first one goes on, a later one returns the first one's result. -/
def quiesce (x : Comm) (t : ℕ) (synced async : NcclResult) : Option Comm :=
  if x.closing ≠ none then none
  else
    match x.threads t with
    | some (.waits destroy) =>
      if x.quiesced then x.closeResult.map fun result => x.put t (some (.closed destroy result))
      else
        some { x.put t (some (.synced destroy ((x.error.first synced).first async))) with
          quiesced := true
          closing := some t
          state := if x.state = .ready then .finalized else x.state }
    | _ => none

/-- A finalize or destroy returns; a finalize that succeeded sets the state, a destroy frees the communicator. -/
def returns (x : Comm) (t : ℕ) : Option Comm :=
  match x.threads t with
  | some (.closed false result) =>
    let x' := x.release t
    some { x' with
      state := if result = .success ∧ x.error = .success ∧ x.state = .ready then .finalized else x.state }
  | some (.closed true _) => some (x.put t none)
  | _ => none

/-- One section of a thread of one of `n` ranks. -/
def step (n : ℕ) (s : State) : Act → Option State
  | .commSplit a t color key noOutput =>
    if a < n ∧ noOutput = false ∧ ¬color.toInt < noColor.toInt ∧ (s a).registered = true ∧ (s a).state = .ready ∧
        (s a).threads t = none then
      some (Function.update s a { (s a).put t (some (.splits color key)) with refs := (s a).refs + 1 })
    else none
  | .commFinalize a t flushed =>
    if a < n ∧ (s a).registered = true ∧ (s a).threads t = none ∧ ((s a).state = .ready → flushed = .success) then
      some (Function.update s a { (s a).put t (some (.waits false)) with refs := (s a).refs + 1 })
    else none
  | .dispose a t abort =>
    if a < n ∧ (s a).registered = true ∧ (s a).threads t = none then
      some (Function.update s a { (s a).put t (some (.disposes abort)) with registered := false })
    else none
  | .alone a t =>
    match (s a).threads t with
    | some (.disposes abort) =>
      if (s a).refs = 0 then some (Function.update s a ((s a).put t (if abort then none else some (.waits true)))) else none
    | _ => none
  | .quiesce a t synced async => (quiesce (s a) t synced async).map fun x => Function.update s a x
  | .allgather a t created => (allgather (s a) t created).map fun x => Function.update s a x
  | .arrives a t => (arrives n a (s a) t (answer n s)).map fun x => Function.update s a x
  | .fails a t => (fails (s a) t).map fun x => Function.update s a x
  | .returns a t => (returns (s a) t).map fun x => Function.update s a x
  | .asyncError a result =>
    if a < n ∧ result ≠ .success ∧ (s a).error = .success then
      some (Function.update s a { s a with error := result, state := .failed })
    else none
  | .revoke a =>
    if a < n ∧ (s a).registered = true ∧ (s a).error = .success ∧ (s a).state = .ready then
      some (Function.update s a { s a with state := .revoked })
    else none

/-- The round that a thread begins next. -/
def nextKind (x : Comm) (t : ℕ) : Option Kind :=
  if x.failed then none
  else
    match x.threads t with
    | some (.splits ..) => some .colors
    | some (.grouped q _ _) => some (.ids q)
    | some (.synced ..) => some .first
    | some (.stopped _ _ q) => some (.second q)
    | _ => none

/-- A rank begins a round of a close only to meet the same round of a close on the other
ranks, and no other round meets one; and a rank begins a split's first round only while no
other split of its own stands between its rounds. -/
def InStep (n : ℕ) (s : State) : Act → Prop
  | .allgather a t _ => ∀ kind, nextKind (s a) t = some kind →
      (∀ b < n, ∀ round : Round, (s b).rounds[(s a).rounds.length]? = some round → round.kind.closeRound = kind.closeRound) ∧
      (kind = .colors → ∀ t' q members rank, (s a).threads t' ≠ some (.grouped q members rank))
  | _ => True

/-- Every rank's communicator is initialized. -/
def init : State := fun _ => .init

end SparkRing.CommGroup
