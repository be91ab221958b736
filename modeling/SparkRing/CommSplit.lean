import SparkRing.CommGroup
import SparkRing.EndInsertion

/-!
# One split of a communicator

All ranks of a ready communicator split it once, each with a color and a key. A rank gathers
every rank's color and key in a round of the bootstrap, and then the ID that its color's leader
created in another one. The rounds of the ranks run in any order, and a round of a rank may fail
at any moment.
-/

namespace SparkRing.CommSplit

open SparkRing.CommGroup (Word NcclResult UniqueId noColor wordAt idRecord leaderResult)

/-- What a rank passes to the split. -/
structure Request where
  color : Word
  key : Word
deriving DecidableEq, Repr

/-- Why no unique ID was created. -/
inductive IdError
  | system
  | argument
  | usage
deriving DecidableEq, Repr

/-- The result of the creation. -/
def IdError.result : IdError → NcclResult
  | .system => .systemError
  | .argument => .invalidArgument
  | .usage => .invalidUsage

/-- The first word of an ID: the first bytes of its magic. -/
def idMagic : Word := 0x4C434353

/-- An ID of a new root. -/
abbrev IssuedId := { id : UniqueId // wordAt id.val 0 = idMagic }

/-- What the creation of a unique ID returns (`ncclGetUniqueId`). -/
abbrev Created := Except IdError IssuedId

/-- The creation as a split sees it. -/
def issue (created : Created) : Except NcclResult UniqueId :=
  match created with
  | .ok id => .ok id.val
  | .error e => .error e.result

/-- How an all-gather of the bootstrap fails once it began. -/
inductive ExchangeFailure
  | system
  | usage
  | remote
  | timeout
deriving DecidableEq, Repr

/-- The result of a split whose all-gather failed (`split_exchange_result`). -/
def splitExchangeResult : ExchangeFailure → NcclResult
  | .usage => .invalidUsage
  | .system => .systemError
  | .remote | .timeout => .remoteError

/-- The communicator that a rank goes on to join: its ranks, its ID and the own rank. -/
structure Join where
  count : ℕ
  id : List Word
  rank : ℕ
deriving DecidableEq, Repr

/-- Where a rank is in its split. -/
inductive Phase
  | calls
  | splits
  /-- In the exchange of colors and keys. -/
  | colors
  | grouped (members : List ℕ) (rank : Option ℕ)
  /-- In the exchange of IDs. -/
  | ids (members : List ℕ) (rank : Option ℕ) (result : NcclResult)
  | returned (result : NcclResult) (join : Option Join)
deriving DecidableEq

/-- A rank with its bootstrap handle. -/
structure Member where
  phase : Phase
  /-- What it contributed to the rounds that it began. -/
  rounds : List (List Word)
  /-- A round of the handle failed. -/
  failed : Bool
deriving DecidableEq

/-- A rank ahead of its split. -/
def Member.start : Member := ⟨.calls, [], false⟩

/-- A rank comes before another one of its color. -/
def earlier (key : ℕ → Word) (a b : ℕ) : Bool := decide ((key a).toInt < (key b).toInt ∨ key a = key b ∧ a < b)

/-- The ranks of a color, by key and then parent rank. -/
def membersOf (n : ℕ) (color : Word) (records : List Word) : List ℕ :=
  EndInsertion.sort (earlier fun r => wordAt records (2 * r + 1))
    ((List.range n).filter fun r => decide (color ≠ noColor ∧ wordAt records (2 * r) = color))

/-- The own rank among the members. -/
def rankIn (members : List ℕ) (me : ℕ) : Option ℕ := if me ∈ members then some (members.idxOf me) else none

/-- A split after its exchange of colors and keys. -/
def afterColors (n me : ℕ) (color : Word) (all : List (List Word)) : Phase :=
  if ∃ r < n, (all.getD r []).length ≠ 2 then .returned .remoteError none
  else
    let members := membersOf n color all.flatten
    .grouped members (rankIn members me)

/-- A split after its exchange of IDs. -/
def afterIds (n : ℕ) (members : List ℕ) (rank : Option ℕ) (result : NcclResult) (all : List (List Word)) : Phase :=
  if ∃ r < n, (all.getD r []).length ≠ 32 then .returned .remoteError none
  else
    let id := (all.flatten.drop (32 * members.headD 0)).take 32
    let result := match rank with
      | some (_ + 1) => result.first (leaderResult id)
      | _ => result
    if result ≠ .success then .returned result none
    else .returned .success (rank.map fun rank => ⟨members.length, id, rank⟩)

namespace Member

variable (x : Member)

/-- The split checks its arguments. -/
def call (request : Request) : Option Member :=
  match x.phase with
  | .calls =>
    some { x with phase := if request.color.toInt < noColor.toInt then .returned .invalidArgument none else .splits }
  | _ => none

/-- The next round begins. -/
def allgather (request : Request) (created : Created) : Option Member :=
  match x.phase with
  | .splits =>
    if x.failed then some { x with phase := .returned .remoteError none }
    else some { x with phase := .colors, rounds := x.rounds ++ [[request.color, request.key]] }
  | .grouped members rank =>
    let record := idRecord rank (issue created)
    if x.failed then some { x with phase := .returned .remoteError none }
    else some { x with phase := .ids members rank record.2, rounds := x.rounds ++ [record.1.val] }
  | _ => none

/-- The round ends well. -/
def arrives (n me : ℕ) (request : Request) (all : ℕ → Option (List (List Word))) : Option Member :=
  match x.phase with
  | .colors => (all 0).map fun all => { x with phase := afterColors n me request.color all }
  | .ids members rank result => (all 1).map fun all => { x with phase := afterIds n members rank result all }
  | _ => none

/-- The round ends otherwise. -/
def fails (failure : ExchangeFailure) : Option Member :=
  match x.phase with
  | .colors | .ids .. => some { x with phase := .returned (splitExchangeResult failure) none, failed := true }
  | _ => none

end Member

/-- The ranks. -/
abbrev State := ℕ → Member

/-- Every rank ahead of its split. -/
def start : State := fun _ => .start

/-- The answer of a round: every rank's contribution, once every rank began it. -/
def answer (n : ℕ) (s : State) (q : ℕ) : Option (List (List Word)) :=
  if ∀ a < n, q < (s a).rounds.length then some ((List.range n).map fun a => ((s a).rounds[q]?).getD []) else none

/-- A section of a rank's split. -/
inductive Act
  | call (a : ℕ)
  | allgather (a : ℕ)
  | arrives (a : ℕ)
  | fails (a : ℕ) (failure : ExchangeFailure)
deriving DecidableEq, Repr

/-- The rank of a section. -/
def Act.rank : Act → ℕ
  | .call a | .allgather a | .arrives a | .fails a _ => a

/-- A rank after a section. -/
def turn (n : ℕ) (requests : ℕ → Request) (created : ℕ → Created) (s : State) : Act → Option Member
  | .call a => (s a).call (requests a)
  | .allgather a => (s a).allgather (requests a) (created a)
  | .arrives a => (s a).arrives n a (requests a) (answer n s)
  | .fails a failure => (s a).fails failure

/-- A section of the split of one of `n` ranks. -/
def step (n : ℕ) (requests : ℕ → Request) (created : ℕ → Created) (s : State) (act : Act) : Option State :=
  if act.rank < n then (turn n requests created s act).map fun x => Function.update s act.rank x else none

/-- The ranks of a color as they are to be ordered. -/
def part (n : ℕ) (requests : ℕ → Request) (color : Word) : List ℕ :=
  EndInsertion.sort (earlier fun r => (requests r).key) ((List.range n).filter fun r => decide (color ≠ noColor ∧ (requests r).color = color))

/-- What a rank is to get: no communicator without a color; else its place in the communicator of
its color with its leader's ID, or its leader's failure. -/
def outcome (n : ℕ) (requests : ℕ → Request) (created : ℕ → Created) (a : ℕ) : NcclResult × Option Join :=
  let members := part n requests (requests a).color
  if (requests a).color = noColor then (.success, none)
  else
    match created (members.headD 0) with
    | .ok id => (.success, some ⟨members.length, id.val.val, members.idxOf a⟩)
    | .error e => (e.result, none)

end SparkRing.CommSplit
