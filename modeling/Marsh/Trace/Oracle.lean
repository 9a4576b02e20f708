import Mathlib.Data.String.Basic
import Std.Data.TreeMap.Lemmas
import Marsh.Validator.Model

/-!
# The no-surprise oracle

A simulated repository that replays a granted history, remembers what each
principal last saw of each resource, and reports the first event that changed
content another principal remembered.  It is written independently of any
policy: a change is a difference of simulated contents.
-/

namespace Marsh
namespace Trace

open Validator

/-- A working-tree blob: `0` at the seed commit, `index + 1` for the edit at
`index`. -/
abbrev Version := Nat

/-- Modelled repository state of one resource. -/
structure FileState where
  /-- The blob the working tree holds, if the path is present. -/
  worktree : Option Version
  /-- The blob the head commit holds, if the path is committed. -/
  head : Option Version
  deriving DecidableEq, Repr

namespace FileState

/-- The seed commit, in which every path exists and is committed. -/
def seeded : FileState where
  worktree := some 0
  head := some 0

/-- Applies the event at `index`. -/
def apply (state : FileState) (action : Action) (index : Nat) : FileState :=
  match action with
  | .edit => { state with worktree := some (index + 1) }
  | .delete => { state with worktree := none }
  | .commit _ => { state with head := state.worktree }
  | .checkout | .stash => { state with worktree := state.head }
  | .stage | .unstage | .clean | .read | .diff | .history => state

end FileState

/-- A principal rewrote content that another principal still remembered. -/
structure Surprise where
  /-- Index of the content-changing event. -/
  index : Nat
  /-- Principal that changed the content. -/
  principal : String
  /-- The content-changing action. -/
  action : Action
  /-- Display text of the resource. -/
  resource : String
  /-- Principal whose remembered content the change falsified. -/
  surprised : String
  /-- Index at which that principal last learned the content. -/
  learnedAt : Nat
  deriving DecidableEq, Repr

/-- Order of file keys. -/
def fileOrder : Resource -> Resource -> Ordering :=
  compareOn Resource.segments

/-- Order of view keys: by principal, then by resource. -/
def viewOrder : Principal × Resource -> Principal × Resource -> Ordering :=
  compareLex (compareOn fun key => key.1.value)
    (compareOn fun key => key.2.segments)

/-- State of a replay. -/
structure Replay where
  /-- Simulated contents; an absent resource is as seeded. -/
  files : Std.TreeMap Resource FileState fileOrder
  /-- What each principal remembers of each resource, and since when. -/
  views : Std.TreeMap (Principal × Resource) (Option Version × Nat) viewOrder
  /-- The first violation. -/
  first : Option Surprise
  /-- Events on a resource another principal held a view of. -/
  contended : Nat

namespace Replay

/-- Before any event. -/
def initial : Replay where
  files := ∅
  views := ∅
  first := none
  contended := 0

/-- The simulated content of a resource. -/
def fileState (replay : Replay) (resource : Resource) : FileState :=
  replay.files[resource]?.getD .seeded

/-- The first other principal that remembers the content before an event. -/
def surprised (replay : Replay) (event : Event) (before : FileState) :
    Option ((Principal × Resource) × (Option Version × Nat)) :=
  replay.views.toList.find? fun ((principal, resource), (remembered, _)) =>
    resource = event.resource && principal ≠ event.principal &&
      remembered = before.worktree

/-- What the principals remember after an event. -/
def viewsAfter (replay : Replay) (index : Nat) (event : Event)
    (after : FileState) :
    Std.TreeMap (Principal × Resource) (Option Version × Nat) viewOrder :=
  -- A read hands the resource over: every other view of it is superseded.
  let views :=
    if event.action = .read then
      replay.views.filter fun (_, resource) _ => resource ≠ event.resource
    else replay.views
  match event.action with
  | .read | .edit =>
      views.insert (event.principal, event.resource) (after.worktree, index)
  | .stage | .delete | .commit _ | .checkout | .stash =>
      views.erase (event.principal, event.resource)
  | .unstage | .diff | .history | .clean => views

/-- Replays one event. -/
def step (replay : Replay) (index : Nat) (event : Event) : Replay :=
  let before := replay.fileState event.resource
  let after := before.apply event.action index
  { files := replay.files.insert event.resource after
    views := replay.viewsAfter index event after
    first :=
      if after.worktree ≠ before.worktree ∧ replay.first.isNone then
        (replay.surprised event before).map
          fun ((principal, _), (_, learnedAt)) =>
            { index
              principal := event.principal.value
              action := event.action
              resource := event.resource.display
              surprised := principal.value
              learnedAt }
      else replay.first
    contended :=
      if replay.views.keys.any fun (principal, resource) =>
          resource = event.resource && principal ≠ event.principal then
        replay.contended + 1
      else replay.contended }

end Replay

/-- Replays a history through the modelled repository. -/
def replay (history : List Event) : Replay :=
  history.zipIdx.foldl (fun replay (event, index) => replay.step index event)
    .initial

/-- The first no-surprise violation of a history. -/
def noSurpriseViolation (history : List Event) : Option Surprise :=
  (replay history).first

/-- How many events acted on a contended resource. -/
def contendedEvents (history : List Event) : Nat :=
  (replay history).contended

end Trace
end Marsh
