import Marsh.Library.PendingWrites
import Marsh.Shellmux.Frontends

/-!
# Geometry

`resize` sets the size of the table, then every terminal and then the displays,
each outside of the lock the one before was taken under; `build_resources` gives
a new terminal the size the table has once more after it has published it.  What
every terminal and display ends with is settled by the writes in flight.
-/

namespace Marsh
namespace Shellmux

open Library

/-! ## Resizes in progress -/

/-- What is still to be done outside of the lock. -/
inductive GeometryTask
  /-- `resize` has taken the size and is to set these terminals and announce. -/
  | resizing (size : TerminalSize) (terminals : List String)
  /-- `build_resources` has published a terminal of another size than the table
  had, and is to set it. -/
  | settling (uid : String) (latest : TerminalSize)
  deriving DecidableEq

/-- The job machine with its terminals and displays.  Terminals are named by the
uid of the spawn that opened them. -/
structure GeometryState where
  /-- The jobs. -/
  session : DeliveryState
  /-- The size of the table. -/
  terminalSize : TerminalSize
  /-- The size a spawn has read. -/
  sizes : String -> TerminalSize
  /-- The size of each terminal. -/
  terminals : String -> TerminalSize
  /-- What is in progress outside of the lock. -/
  tasks : Multiset GeometryTask
  /-- Sizes announced, in order. -/
  resized : List TerminalSize
  /-- What the mux delivers to. -/
  frontend : Frontend

/-- One step. -/
inductive GeometryStep
  /-- A step of the job machine. -/
  | session (step : DeliveryStep)
  /-- `resize` takes a size and collects the open terminals. -/
  | resize (size : TerminalSize)
  /-- `resize` sets its next terminal. -/
  | apply (size : TerminalSize) (uid : String) (left : List String)
  /-- `resize` announces its size. -/
  | announce (size : TerminalSize)
  /-- `build_resources` sets the terminal it has published. -/
  | settle (uid : String) (latest : TerminalSize)

namespace GeometryState

variable (state : GeometryState)

/-- The terminals of the open jobs, in creation order. -/
def openTerminals : List String :=
  state.session.jobs.table.rows.filterMap fun job =>
    state.session.producers job.sandbox.uid

/-- Whether a step of the job machine may be next: no terminal refuses its size,
and a job is announced once its geometry is settled. -/
def Permits : DeliveryStep -> Prop
  | .refuseSize _ => False
  | .announceOpened sandbox =>
      ∀ latest, GeometryTask.settling sandbox.uid latest ∉ state.tasks
  | _ => True

/-- The sizes spawns have read after a step of the job machine. -/
def sizesAfter : DeliveryStep -> String -> TerminalSize
  | .job (.spawn _ uid _ _) _ _ =>
      Function.update state.sizes uid state.terminalSize
  | _ => state.sizes

/-- The sizes of the terminals after a step of the job machine. -/
def terminalsAfter : DeliveryStep -> String -> TerminalSize
  | .job (.build _ sandbox _) _ _ =>
      Function.update state.terminals sandbox.uid (state.sizes sandbox.uid)
  | _ => state.terminals

/-- What is in progress after a step of the job machine. -/
def tasksAfter : DeliveryStep -> Multiset GeometryTask
  | .job (.build _ sandbox _) _ _ =>
      if state.terminalSize ≠ state.sizes sandbox.uid then
        .settling sandbox.uid state.terminalSize ::ₘ state.tasks
      else state.tasks
  | _ => state.tasks

/-- Delivers what a step of the job machine tells. -/
def frontendAfter (step : DeliveryStep) : Frontend :=
  step.tells.foldl (fun frontend event => frontend.update (.about event))
    state.frontend

/-- The steps of the machine. -/
def Steps (step : GeometryStep) (next : GeometryState) : Prop :=
  match step with
  | .session step =>
      ∃ session, state.session.Steps step session ∧ state.Permits step ∧
        next =
          { state with
            session := session
            sizes := state.sizesAfter step
            terminals := state.terminalsAfter step
            tasks := state.tasksAfter step
            frontend := state.frontendAfter step }
  | .resize size =>
      size.Valid ∧
        next =
          { state with
            terminalSize := size
            tasks := .resizing size state.openTerminals ::ₘ state.tasks }
  | .apply size uid left =>
      ∃ rest, state.tasks = .resizing size (uid :: left) ::ₘ rest ∧
        next =
          { state with
            terminals := Function.update state.terminals uid size
            tasks := .resizing size left ::ₘ rest }
  | .announce size =>
      ∃ rest, state.tasks = .resizing size [] ::ₘ rest ∧
        next =
          { state with
            tasks := rest
            resized := state.resized ++ [size]
            frontend := state.frontend.update (.resized size) }
  | .settle uid latest =>
      ∃ rest, state.tasks = .settling uid latest ::ₘ rest ∧
        next =
          { state with
            terminals := Function.update state.terminals uid latest
            tasks := rest }

/-- A mux over a frontend, whose geometry it opens every terminal at. -/
def start (frontend : Frontend) : GeometryState where
  session := .empty
  terminalSize := frontend.size
  sizes _ := frontend.size
  terminals _ := frontend.size
  tasks := 0
  resized := []
  frontend := (frontend.bind true).update .changed

end GeometryState

/-- The job machine with its terminals and displays, as a transition system. -/
def geometryMachine : TransitionSystem GeometryState GeometryStep where
  initial state :=
    ∃ frontend, frontend.size.Valid ∧ state = .start frontend
  step := GeometryState.Steps

/-! ## Agreement -/

/-- What is to hold a size. -/
inductive Screen
  /-- The terminal a spawn opened. -/
  | terminal (uid : String)
  /-- The displays. -/
  | displays
  deriving DecidableEq

/-- The writes a task is still to make. -/
def GeometryTask.writes : GeometryTask -> List (Screen × TerminalSize)
  | .resizing size terminals =>
      terminals.map (fun uid => (.terminal uid, size)) ++ [(.displays, size)]
  | .settling uid latest => [(.terminal uid, latest)]

/-- The screen a step writes a size to. -/
def GeometryStep.write : GeometryStep -> Option (Screen × TerminalSize)
  | .apply size uid _ => some (.terminal uid, size)
  | .announce size => some (.displays, size)
  | .settle uid latest => some (.terminal uid, latest)
  | .session _ | .resize _ => none

namespace GeometryState

variable (state : GeometryState)

/-- The screens that are to agree: the terminals of the open jobs and the
displays. -/
def Open : Screen -> Prop
  | .terminal uid => uid ∈ state.openTerminals
  | .displays => True

/-- A write of the table's size to this screen is still to be made. -/
def Awaits (screen : Screen) : Prop :=
  ∃ task ∈ state.tasks, (screen, state.terminalSize) ∈ task.writes

/-- A step writes to an open screen only the size of the table, or a size the
table's is still to be written over. -/
def Timely (step : GeometryStep) : Prop :=
  ∀ screen size, step.write = some (screen, size) -> state.Open screen ->
    size = state.terminalSize ∨ state.Awaits screen

/-- Every resize has returned, and every construction has set its terminal. -/
def Settled : Prop := state.tasks = 0

/-- Every open terminal has the table's size, the last size announced is the
table's, and the displays report it. -/
structure Agrees : Prop where
  terminals : ∀ uid ∈ state.openTerminals, state.terminals uid = state.terminalSize
  announced : ∀ size ∈ state.resized.getLast?, size = state.terminalSize
  reported : state.frontend.size = state.terminalSize
  parts : state.resized ≠ [] ->
    ∀ part ∈ state.frontend.parts, part.size = state.terminalSize

end GeometryState

end Shellmux
end Marsh
