import Mathlib.Data.Multiset.MapFold
import Mathlib.Logic.Function.Basic

/-!
# Writes in flight

A value with copies, and writes to copies that are still in flight.  A new value
sends a write to every copy, and writes land in any order.  A copy that has not
the value has a write of it still to come, as long as no older write lands on a
copy whose last write of the value has already landed.
-/

namespace Library

universe u v

/-- A value, its copies, and the writes to them in flight. -/
structure PendingWrites (Target : Type u) (Value : Type v) where
  /-- The value. -/
  current : Value
  /-- Its copies. -/
  copy : Target -> Value
  /-- Writes that have not landed. -/
  pending : Multiset (Target × Value)

namespace PendingWrites

variable {Target : Type u} {Value : Type v}

section

variable (writes : PendingWrites Target Value)

/-- A write of the value to this copy is in flight. -/
def Awaits (target : Target) : Prop :=
  (target, writes.current) ∈ writes.pending

/-- The copy has the value, or a write of it is in flight. -/
def Upheld (target : Target) : Prop :=
  writes.copy target = writes.current ∨ writes.Awaits target

/-- A write may land: it is of the value, or the value is still to be written to
the same copy. -/
def Timely (target : Target) (value : Value) : Prop :=
  value = writes.current ∨ writes.Awaits target

/-- Changes the value and sends it to some copies. -/
def set (value : Value) (targets : Multiset Target) :
    PendingWrites Target Value where
  current := value
  copy := writes.copy
  pending := targets.map (fun target => (target, value)) + writes.pending

/-- Lands a write, which leaves the others in flight. -/
def land
    [DecidableEq Target]
    (target : Target)
    (value : Value)
    (rest : Multiset (Target × Value)) : PendingWrites Target Value where
  current := writes.current
  copy := Function.update writes.copy target value
  pending := rest

end

variable {writes : PendingWrites Target Value}

/-- Once nothing is in flight, an upheld copy has the value. -/
theorem copy_of_upheld
    (landed : writes.pending = 0)
    {target : Target}
    (upheld : writes.Upheld target) :
    writes.copy target = writes.current := by
  rcases upheld with same | awaits
  · exact same
  · rw [Awaits, landed] at awaits
    exact absurd awaits (Multiset.notMem_zero _)

/-- A copy the new value is sent to is upheld. -/
theorem upheld_set
    {value : Value}
    {targets : Multiset Target}
    {target : Target}
    (member : target ∈ targets) :
    (writes.set value targets).Upheld target :=
  .inr (Multiset.mem_add.mpr
    (.inl (Multiset.mem_map.mpr ⟨target, member, rfl⟩)))

/-- What else is in flight when a write lands that is not of the value. -/
theorem awaits_of_timely
    {target : Target}
    {value : Value}
    {rest : Multiset (Target × Value)}
    (pending : writes.pending = (target, value) ::ₘ rest)
    (timely : writes.Timely target value) :
    value = writes.current ∨ (target, writes.current) ∈ rest := by
  rcases timely with same | awaits
  · exact .inl same
  · rw [Awaits, pending] at awaits
    rcases Multiset.mem_cons.mp awaits with own | other
    · exact .inl (Prod.mk.inj own).2.symm
    · exact .inr other

/-- A write leaves a copy upheld, if it lands in time on this copy or lands on
another. -/
theorem upheld_land
    [DecidableEq Target]
    {target : Target}
    {value : Value}
    {rest : Multiset (Target × Value)}
    (pending : writes.pending = (target, value) ::ₘ rest)
    {other : Target}
    (timely : other = target -> writes.Timely target value)
    (upheld : writes.Upheld other) :
    (writes.land target value rest).Upheld other := by
  by_cases same : other = target
  · subst same
    rcases awaits_of_timely pending (timely rfl) with fresh | awaits
    · left
      change Function.update writes.copy other value other = writes.current
      rw [Function.update_self, fresh]
    · exact .inr awaits
  · rcases upheld with copied | awaits
    · left
      change Function.update writes.copy target value other = writes.current
      rw [Function.update_of_ne same, copied]
    · right
      rw [Awaits, pending] at awaits
      rcases Multiset.mem_cons.mp awaits with own | rest
      · exact absurd (Prod.mk.inj own).1 same
      · exact rest

end PendingWrites

end Library
