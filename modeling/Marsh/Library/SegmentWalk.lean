import Mathlib.Algebra.BigOperators.Group.List.Basic
import Mathlib.Data.Int.Order.Basic
import Mathlib.Algebra.Ring.Int.Defs

/-!
# Walks through directories

A path leads from a place segment by segment: down to a name, up again, or
nowhere.  Nothing is above the root, so a walk fails as soon as it climbs out.
-/

namespace Library

universe u

/-- One segment of a path. -/
inductive Segment (Name : Type u)
  /-- It stays where it is. -/
  | stay
  /-- It leads to the parent. -/
  | up
  /-- It leads to a child. -/
  | down (name : Name)
  deriving DecidableEq, Repr

namespace Segment

variable {Name : Type u}

/-- How much deeper a segment leads. -/
def rise : Segment Name -> Int
  | .stay => 0
  | .up => -1
  | .down _ => 1

/-- How much deeper a path leads. -/
def depth (path : List (Segment Name)) : Int := (path.map rise).sum

/-- Where a segment leads from a place, which is the names down to it. -/
def move (place : List Name) : Segment Name -> Option (List Name)
  | .stay => some place
  | .up => if place.isEmpty then none else some place.dropLast
  | .down name => some (place ++ [name])

/-- Where a path leads from a place. -/
def walk (place : List Name) (path : List (Segment Name)) :
    Option (List Name) :=
  path.foldlM move place

/-- No prefix of a path climbs above the root. -/
def Inside (place : List Name) (path : List (Segment Name)) : Prop :=
  ∀ before, before <+: path -> 0 ≤ place.length + depth before

@[simp] theorem depth_nil : depth ([] : List (Segment Name)) = 0 := rfl

@[simp] theorem depth_cons
    (segment : Segment Name)
    (path : List (Segment Name)) :
    depth (segment :: path) = segment.rise + depth path := by
  rw [depth, List.map_cons, List.sum_cons, depth]

@[simp] theorem walk_nil (place : List Name) :
    walk place [] = some place := rfl

theorem walk_cons
    (place : List Name)
    (segment : Segment Name)
    (path : List (Segment Name)) :
    walk place (segment :: path) =
      (segment.move place).bind fun next => walk next path := rfl

/-- A segment leads nowhere only from the root to its parent; elsewhere it
changes the depth by its own. -/
theorem move_cases (place : List Name) (segment : Segment Name) :
    (segment.move place = none ∧ (place.length : Int) + segment.rise < 0) ∨
      ∃ next, segment.move place = some next ∧
        (next.length : Int) = place.length + segment.rise := by
  cases segment with
  | stay => exact .inr ⟨place, rfl, (Int.add_zero _).symm⟩
  | up =>
      by_cases root : place = []
      · subst root
        exact .inl ⟨rfl, by simp [rise]⟩
      · refine .inr ⟨place.dropLast, ?_, ?_⟩
        · rw [move, if_neg (by simpa using root)]
        · have positive := List.length_pos_iff.mpr root
          rw [List.length_dropLast, rise]
          omega
  | down name =>
      refine .inr ⟨place ++ [name], rfl, ?_⟩
      rw [List.length_append, List.length_singleton, rise]
      omega

/-- A walk leads somewhere exactly when it never climbs above the root. -/
theorem walk_isSome_iff (place : List Name) (path : List (Segment Name)) :
    (walk place path).isSome ↔ Inside place path := by
  induction path generalizing place with
  | nil =>
      refine iff_of_true rfl fun before isPrefix => ?_
      rw [List.prefix_nil.mp isPrefix, depth_nil, Int.add_zero]
      exact Int.natCast_nonneg _
  | cons segment path hypothesis =>
      rw [walk_cons]
      obtain ⟨stuck, above⟩ | ⟨next, moved, deeper⟩ := move_cases place segment
      · rw [stuck]
        refine iff_of_false Bool.false_ne_true fun inside => ?_
        have first := inside [segment] (List.prefix_append [segment] path)
        rw [depth_cons, depth_nil, Int.add_zero] at first
        omega
      · rw [moved, Option.bind_some, hypothesis next]
        constructor
        · intro inside before isPrefix
          rcases before with _ | ⟨first, before⟩
          · rw [depth_nil, Int.add_zero]
            exact Int.natCast_nonneg _
          · obtain ⟨rfl, rest⟩ := List.cons_prefix_cons.mp isPrefix
            have later := inside before rest
            rw [deeper] at later
            rw [depth_cons]
            omega
        · intro inside before isPrefix
          have whole := inside (segment :: before)
            (List.cons_prefix_cons.mpr ⟨rfl, isPrefix⟩)
          rw [depth_cons] at whole
          omega

/-- A path of names leads down them. -/
theorem walk_down (place names : List Name) :
    walk place (names.map .down) = some (place ++ names) := by
  induction names generalizing place with
  | nil => rw [List.map_nil, walk_nil, List.append_nil]
  | cons name names hypothesis =>
      rw [List.map_cons, walk_cons]
      change walk (place ++ [name]) (names.map .down) = _
      rw [hypothesis, List.append_assoc, List.singleton_append]

/-- A walk passes only through names of its path and of where it began. -/
theorem mem_of_walk
    {place next : List Name}
    {path : List (Segment Name)}
    (walked : walk place path = some next)
    {name : Name}
    (member : name ∈ next) : name ∈ place ∨ .down name ∈ path := by
  induction path generalizing place with
  | nil =>
      obtain rfl := Option.some.inj walked
      exact .inl member
  | cons segment path hypothesis =>
      rw [walk_cons, Option.bind_eq_some_iff] at walked
      obtain ⟨middle, moved, rest⟩ := walked
      rcases hypothesis rest with between | later
      · cases segment with
        | stay =>
            obtain rfl := Option.some.inj moved
            exact .inl between
        | up =>
            rw [move] at moved
            split_ifs at moved
            obtain rfl := Option.some.inj moved
            exact .inl (List.dropLast_subset _ between)
        | down own =>
            obtain rfl := Option.some.inj moved
            rcases List.mem_append.mp between with old | new
            · exact .inl old
            · rw [List.mem_singleton.mp new]
              exact .inr List.mem_cons_self
      · exact .inr (List.mem_cons_of_mem _ later)

end Segment

end Library
