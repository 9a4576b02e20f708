import Marsh.Library.TransitionSystem

/-!
# Stores with validated commits

A store that numbers its commits, notes the last one that changed each place,
and remembers every version.  What somebody made of an old version replaces the
contents at the places where the two differ.  When no such place, and no place
that was touched in making it, changed after the old version, the old version is
still the contents, so that the commit is a step of a serial run.
-/

namespace Library

universe u v

/-! ## Serial runs -/

/-- Where a list of labels leads from a state. -/
inductive TransitionSystem.Executes
    {State : Type u}
    {Label : Type v}
    (system : TransitionSystem State Label)
    (start : State) : List Label -> State -> Prop
  | nil : Executes system start [] start
  | snoc {labels : List Label} {middle next : State} {label : Label}
      (executes : Executes system start labels middle)
      (steps : system.step middle label next) :
      Executes system start (labels ++ [label]) next

/-! ## Stores -/

/-- Contents, the number of the last commit and of the last one that changed
each place, and the contents after each commit. -/
structure OptimisticStore (Place : Type u) (Value : Type v) where
  contents : Place -> Value
  changed : Place -> Option Nat
  clock : Nat
  versions : Nat -> Place -> Value
  current : versions clock = contents
  bounded : ∀ place, ∀ last ∈ changed place, last ≤ clock
  newer : ∀ base ≤ clock, ∀ place, versions base place ≠ contents place ->
    ∃ last ∈ changed place, base < last

namespace OptimisticStore

variable {Place : Type u} {Value : Type v}

/-- A store whose versions so far are all one. -/
def start
    (contents : Place -> Value)
    (changed : Place -> Option Nat)
    (clock : Nat)
    (bounded : ∀ place, ∀ last ∈ changed place, last ≤ clock) :
    OptimisticStore Place Value where
  contents := contents
  changed := changed
  clock := clock
  versions _ := contents
  current := rfl
  bounded := bounded
  newer _ _ _ differs := absurd rfl differs

variable {store : OptimisticStore Place Value}

/-- Whether no place of some changed after a version. -/
def Fresh
    (store : OptimisticStore Place Value)
    (base : Nat)
    (places : Place -> Prop) : Prop :=
  ∀ place, places place -> ∀ last ∈ store.changed place, last ≤ base

/-- A fresh place has the content it had in the version. -/
theorem Fresh.content_eq
    {base : Nat}
    {places : Place -> Prop}
    (fresh : store.Fresh base places)
    (within : base ≤ store.clock)
    {place : Place}
    (checked : places place) :
    store.contents place = store.versions base place := by
  by_contra differs
  obtain ⟨last, changed, after⟩ :=
    store.newer base within place (Ne.symm differs)
  exact absurd (fresh place checked last changed) (Nat.not_le_of_lt after)

section Publication

variable [DecidableEq Place]

/-- The contents after some places are replaced. -/
def replace
    (contents : Place -> Value)
    (writes : List Place)
    (result : Place -> Value)
    (place : Place) : Value :=
  if place ∈ writes then result place else contents place

/-- Commits new values for some places. -/
def publish
    (store : OptimisticStore Place Value)
    (writes : List Place)
    (result : Place -> Value) : OptimisticStore Place Value where
  contents := replace store.contents writes result
  changed place :=
    if place ∈ writes then some (store.clock + 1) else store.changed place
  clock := store.clock + 1
  versions :=
    Function.update store.versions (store.clock + 1)
      (replace store.contents writes result)
  current := Function.update_self _ _ _
  bounded place last is := by
    split_ifs at is with written
    · exact (Option.some.inj is).ge
    · exact Nat.le_succ_of_le (store.bounded place last is)
  newer base within place differs := by
    by_cases last : base = store.clock + 1
    · rw [last, Function.update_self] at differs
      exact absurd rfl differs
    · have before : base ≤ store.clock := by omega
      rw [Function.update_of_ne last, replace] at differs
      split_ifs at differs ⊢ with written
      · exact ⟨_, rfl, Nat.lt_succ_of_le before⟩
      · exact store.newer base before place differs

/-- A validated commit finds the version its result was made of, and leaves the
result. -/
theorem Fresh.serial
    {base : Nat}
    {places : Place -> Prop}
    {writes : List Place}
    {result : Place -> Value}
    (fresh : store.Fresh base places)
    (within : base ≤ store.clock)
    (checked : ∀ place ∈ writes, places place)
    (differ : ∀ place, place ∈ writes ↔ store.contents place ≠ result place)
    (touched : ∀ place, result place ≠ store.versions base place ->
      places place) :
    store.contents = store.versions base ∧
      (store.publish writes result).contents = result := by
  constructor
  · funext place
    by_cases written : place ∈ writes
    · exact fresh.content_eq within (checked place written)
    · have same := not_not.mp (mt (differ place).mpr written)
      by_contra apart
      exact apart (fresh.content_eq within
        (touched place fun result => apart (same.trans result)))
  · funext place
    change replace store.contents writes result place = result place
    rw [replace]
    split_ifs with written
    · rfl
    · exact not_not.mp (mt (differ place).mpr written)

end Publication

end OptimisticStore

end Library
