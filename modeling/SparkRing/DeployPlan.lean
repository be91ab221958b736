import Mathlib.Data.Rat.Defs
import SparkRing.OrderedDict

/-!
# Reviewed deployment plans

A plan lists phases, and a phase has at most one action for each host. An action that
changes a host states its risk and the command that verifies it. A receipt records, under
the phase and the host, how far each action got.
-/

namespace SparkRing.Deploy

open OrderedDict

/-- A value of a document that is neither a list nor an object. -/
inductive Scalar
  /-- No value. -/
  | null
  | bool (value : Bool)
  /-- A number, written with or without a fraction. -/
  | number (fraction : Bool) (value : ℚ)
  | text (value : String)
  deriving DecidableEq

/-- A document. -/
inductive Json
  | scalar (value : Scalar)
  | list (items : List Json)
  | object (fields : List (String × Json))

/-- A field of a document, where it is an object that has it. -/
def Json.field? : Json → String → Option Json
  | .object fields, key => fields.lookup key
  | _, _ => none

mutual

/-- Explicit object fields and list records match; an empty list means empty. -/
def jsonMatches (value : Json) : Json → Bool
  | .object fields => matchFields value fields
  | .list [] => match value with
    | .list [] => true
    | _ => false
  | .list (wanted :: rest) => match value with
    | .list items => matchItems items (wanted :: rest)
    | _ => false
  | .scalar expected => match value with
    | .scalar given => given = expected
    | _ => false

/-- Every expected field is there and matches. -/
def matchFields (value : Json) : List (String × Json) → Bool
  | [] => match value with
    | .object _ => true
    | _ => false
  | (key, expected) :: rest =>
    (match value.field? key with
    | some given => jsonMatches given expected
    | none => false) && matchFields value rest

/-- Every wanted record matches one of the items. -/
def matchItems (items : List Json) : List Json → Bool
  | [] => true
  | wanted :: rest => items.any (fun item => jsonMatches item wanted) && matchItems items rest

end

/-- What the runner tells of a command. -/
structure Result where
  /-- Its exit code. -/
  returncode : ℤ
  /-- Its output, stripped. -/
  stdout : String
  /-- The document that its output parses to, if it does. -/
  document : Option Json
  /-- It timed out, so remote work may still be running. -/
  uncertain : Bool

/-- A command and the output that it must have. -/
structure Check where
  /-- The command. -/
  argv : List String
  /-- The expected output. -/
  stdout : Option String
  /-- The expected document. -/
  json : Option Json

/-- A command did what is expected of it. -/
def verified (result : Result) (expected : Check) : Bool :=
  if result.returncode ≠ 0 ∨ result.uncertain then false
  else if expected.stdout.any fun stdout => result.stdout ≠ stdout then false
  else
    match expected.json with
    | none => true
    | some json =>
      match result.document with
      | none => false
      | some document => jsonMatches document json

/-- What an action may do. -/
inductive Risk
  | readOnly
  /-- It changes the host. -/
  | mutatesHost
  | driverReload
  | startsModel
  | stopsModel
  | hardwareTest
  deriving DecidableEq

/-- One command for one host. -/
structure Action where
  host : String
  /-- The command. -/
  argv : List String
  /-- What it may do. -/
  risk : Risk
  /-- What verifies it. -/
  verify : Option Check
  /-- What must hold before it. -/
  checks : List Check

/-- Actions that run side by side. -/
structure Phase where
  /-- The name of the phase. -/
  id : String
  actions : List Action

/-- Check the actions of a phase, given the hosts of those before. -/
def validateActions (hosts : List String) : List Action → Except String Unit
  | [] => .ok ()
  | action :: rest =>
    if action.host ∈ hosts then .error "Each phase may contain one action per host"
    else if action.argv = [] ∨ action.argv.any fun argument => argument.toList.contains '\x00' then
      .error "Actions require an argument array"
    else if action.risk ≠ .readOnly ∧ action.verify.isNone then .error "Changing actions require a verification command"
    else validateActions (action.host :: hosts) rest

/-- Check the phases of a plan, given the names of those before. -/
def validatePhases (names : List String) : List Phase → Except String Unit
  | [] => .ok ()
  | phase :: rest => do
    if phase.id = "" ∨ phase.id ∈ names then .error "Phase IDs must be unique"
    validateActions [] phase.actions
    validatePhases (phase.id :: names) rest

/-- A sealed plan. -/
structure Plan where
  /-- Its phases in order. -/
  phases : List Phase
  /-- The digest that it was reviewed under. -/
  sha256 : String
  valid : validatePhases [] phases = .ok ()

/-- What a receipt records an action under. -/
def actionKey (phase : Phase) (action : Action) : String := phase.id ++ ":" ++ action.host

def Plan.action? (plan : Plan) (i j : ℕ) : Option (Phase × Action) :=
  plan.phases[i]?.bind fun phase => phase.actions[j]?.map fun action => (phase, action)

/-- What a controller allows. -/
structure Permissions where
  driverReload : Bool
  /-- Starts and stops of models. -/
  modelActions : Bool
  /-- GPU and RDMA tests. -/
  hardwareTests : Bool
  deriving DecidableEq

/-- An action needs a permission that is not given, among those a phase checks again. -/
def Permissions.refuseAgain (permissions : Permissions) (action : Action) : Option String :=
  if action.risk = .driverReload ∧ permissions.driverReload = false then
    some "Plan contains a driver reload; explicit driver-reload authorization required"
  else if (action.risk = .startsModel ∨ action.risk = .stopsModel) ∧ permissions.modelActions = false then
    some "Plan contains model actions; explicit model-action authorization required"
  else none

/-- An action needs a permission that is not given. -/
def Permissions.refuse (permissions : Permissions) (action : Action) : Option String :=
  (permissions.refuseAgain action).orElse fun _ =>
    if action.risk = .hardwareTest ∧ permissions.hardwareTests = false then
      some "Plan contains GPU/RDMA tests; explicit hardware-test authorization required"
    else none

/-- How far an action got. -/
inductive ActionState
  /-- Its command may have been issued. -/
  | running
  /-- What it did is not known. -/
  | uncertain
  /-- It failed, and had changed nothing. -/
  | failed
  | succeeded
  deriving DecidableEq

/-- What is known of the actions of a plan. -/
structure Receipt where
  /-- The digest of the plan. -/
  plan : String
  /-- How far each action got. -/
  actions : Dict String ActionState
  /-- All of them succeeded or were verified again. -/
  complete : Bool

/-- The receipt of a plan that nothing is known of. -/
def Receipt.fresh (plan : Plan) : Receipt := ⟨plan.sha256, Dict.empty, false⟩

/-- How far an action got, by the exit of its command. -/
def stateOf (action : Action) (result : Result) : ActionState :=
  if result.uncertain then .uncertain
  else if result.returncode ≠ 0 then if action.risk ≠ .readOnly then .uncertain else .failed
  else .succeeded

/-- The command that verifies a completed action again: its own, where it has none for that. -/
def Action.recheck (action : Action) : Check := action.verify.getD ⟨action.argv, none, none⟩

variable {plan : Plan} {phase : Phase} {action action' : Action} {hosts names : List String} {actions : List Action}
  {phases : List Phase} {j j' : ℕ} {result : Result}

/-- A changing action does not end as failed. -/
theorem stateOf_ne_failed (h : action.risk ≠ .readOnly) : stateOf action result ≠ .failed := by
  unfold stateOf
  rw [if_pos h]
  split
  · exact ActionState.noConfusion
  split_ifs with hcode
  · exact ActionState.noConfusion
  · exact ActionState.noConfusion

theorem hosts_of_validate (h : validateActions hosts actions = .ok ()) :
    (actions.map Action.host).Nodup ∧ ∀ action ∈ actions, action.host ∉ hosts := by
  induction actions generalizing hosts with
  | nil => exact ⟨List.nodup_nil, fun _ hno => nomatch hno⟩
  | cons action rest ih =>
    rw [validateActions] at h
    split at h
    · cases h
    next hnew =>
      split at h
      · cases h
      split at h
      · cases h
      obtain ⟨hnodup, hfresh⟩ := ih h
      rw [List.map_cons, List.nodup_cons]
      refine ⟨⟨?_, hnodup⟩, ?_⟩
      · intro hmem
        obtain ⟨other, hother, hsame⟩ := List.mem_map.mp hmem
        exact hfresh other hother (hsame ▸ List.mem_cons_self)
      intro other hother
      rcases List.mem_cons.mp hother with rfl | hrest
      · exact hnew
      · exact fun hmem => hfresh other hrest (List.mem_cons_of_mem _ hmem)

theorem validate_of_mem (h : validatePhases names phases = .ok ()) (hphase : phase ∈ phases) :
    validateActions [] phase.actions = .ok () := by
  induction phases generalizing names with
  | nil => cases hphase
  | cons first rest ih =>
    rw [validatePhases] at h
    split at h
    · cases h
    cases hactions : validateActions [] first.actions with
    | error =>
      rw [hactions] at h
      cases h
    | ok _ =>
      rw [hactions] at h
      rcases List.mem_cons.mp hphase with rfl | hrest
      · exact hactions
      · exact ih h hrest

/-- Actions of one phase are recorded under different keys. -/
theorem actionKey_inj (hphase : phase ∈ plan.phases) (hj : phase.actions[j]? = some action) (hj' : phase.actions[j']? = some action')
    (hkey : actionKey phase action = actionKey phase action') : j = j' := by
  have hhost : action.host = action'.host := (String.append_right_inj _).mp hkey
  obtain ⟨hnodup, -⟩ := hosts_of_validate (validate_of_mem plan.valid hphase)
  have hlt : j < (phase.actions.map Action.host).length := by
    rw [List.length_map]
    exact (List.getElem?_eq_some_iff.mp hj).1
  refine (List.getElem?_inj hlt hnodup).mp ?_
  rw [List.getElem?_map, List.getElem?_map, hj, hj', Option.map_some, Option.map_some, hhost]

end SparkRing.Deploy
