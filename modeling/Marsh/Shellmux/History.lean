import Marsh.Shellmux.AuthoritySemantics

/-!
# The durable capability history

One record is appended for every recorded command; a restart folds the records
into the authority's history, path generations and sequence number.
-/

namespace Marsh
namespace Shellmux

open Validator

/-- One recorded command, as the history log holds it. -/
structure HistoryRecord where
  /-- Sequence number of the seed version it left. -/
  seq : Nat
  /-- The principal it was granted to. -/
  principal : String
  /-- The command line. -/
  cmd : String
  /-- The capabilities granted. -/
  events : List Event
  /-- The paths it wrote. -/
  paths : List String
  deriving DecidableEq, Repr

/-- The record a recorded command appends. -/
def HistoryRecord.of
    (seq : Nat)
    (principal cmd : String)
    (events : List Event)
    (ops : List CommitOp) : HistoryRecord where
  seq := seq
  principal := principal
  cmd := cmd
  events := events
  paths := ops.map CommitOp.path

/-- The authority before any record. -/
def AuthorityState.fresh : AuthorityState where
  history := []
  generations := ∅
  seq := 0

/-- Adds one record to the loaded state. -/
def AuthorityState.load
    (state : AuthorityState)
    (record : HistoryRecord) : AuthorityState where
  history := state.history ++ record.events
  generations := record.paths.foldl
    (fun generations path => generations.insert path record.seq)
    state.generations
  seq := max state.seq record.seq

/-- Rebuilds the authority's state from the history log. -/
def load (records : List HistoryRecord) : AuthorityState :=
  records.foldl AuthorityState.load .fresh

/-- No path was written later than the highest sequence number. -/
def AuthorityState.Bounded (state : AuthorityState) : Prop :=
  ∀ path : String, ∀ merged ∈ state.generations[path]?, merged ≤ state.seq

theorem AuthorityState.Bounded.load
    {state : AuthorityState}
    (bounded : state.Bounded)
    (record : HistoryRecord) : (state.load record).Bounded := by
  intro path merged mergedEq
  rw [AuthorityState.load, getElem?_foldl_insert] at mergedEq
  split_ifs at mergedEq with written
  · rw [← Option.some.inj mergedEq]
    exact le_max_right state.seq record.seq
  · exact (bounded path merged mergedEq).trans (le_max_left _ _)

/-- A loaded authority names no later writer than its sequence number. -/
theorem bounded_load (records : List HistoryRecord) : (load records).Bounded := by
  suffices extended : ∀ state : AuthorityState, state.Bounded ->
      (records.foldl AuthorityState.load state).Bounded by
    exact extended _ fun path merged mergedEq => by
      simp [AuthorityState.fresh] at mergedEq
  induction records with
  | nil => exact fun _ bounded => bounded
  | cons record records hypothesis =>
      exact fun state bounded => hypothesis _ (bounded.load record)

end Shellmux
end Marsh
