import Mathlib.Data.List.Nodup
import Mathlib.Logic.Function.Basic
import Mathlib.Logic.Relation
import Marsh.Library.TransitionSystem

/-!
# Programs that hold locks

A program is reduced to the guards it holds.  Its runs are interleaved by any
number of callers, and a lock order that every program respects rules a cycle of
waiting callers out.
-/

namespace Library

universe u v

/-! ## Programs and their runs -/

/-- How a lock is held. -/
inductive LockMode
  | shared
  | exclusive
  deriving DecidableEq

/-- A program as the guards it holds, each released at the end of its block. -/
inductive LockProgram (Lock : Type u)
  | skip
  | hold (lock : Lock) (mode : LockMode) (body : LockProgram Lock)
  | seq (first second : LockProgram Lock)
  | choice (first second : LockProgram Lock)
  | many (body : LockProgram Lock)

/-- What a run does about one lock. -/
inductive LockAction (Lock : Type u)
  | acquire (lock : Lock) (mode : LockMode)
  | release (lock : Lock)
  deriving DecidableEq

variable {Lock : Type u}

namespace LockProgram

instance : AndThen (LockProgram Lock) :=
  ⟨fun first second => .seq first (second ())⟩

instance : OrElse (LockProgram Lock) :=
  ⟨fun first second => .choice first (second ())⟩

/-- The runs of a program. -/
inductive Runs : LockProgram Lock -> List (LockAction Lock) -> Prop
  | skip : Runs .skip []
  | hold {lock : Lock} {mode : LockMode} {body : LockProgram Lock}
      {run : List (LockAction Lock)} (runs : Runs body run) :
      Runs (.hold lock mode body) (.acquire lock mode :: run ++ [.release lock])
  | seq {first second : LockProgram Lock} {run rest : List (LockAction Lock)}
      (runs : Runs first run) (later : Runs second rest) :
      Runs (.seq first second) (run ++ rest)
  | left {first second : LockProgram Lock} {run : List (LockAction Lock)}
      (runs : Runs first run) : Runs (.choice first second) run
  | right {first second : LockProgram Lock} {run : List (LockAction Lock)}
      (runs : Runs second run) : Runs (.choice first second) run
  | none {body : LockProgram Lock} : Runs (.many body) []
  | again {body : LockProgram Lock} {run rest : List (LockAction Lock)}
      (runs : Runs body run) (later : Runs (.many body) rest) :
      Runs (.many body) (run ++ rest)

/-- Every lock the program takes comes after all it holds, `held` included. -/
def respects (before : Lock -> Lock -> Bool) :
    List Lock -> LockProgram Lock -> Bool
  | _, .skip => true
  | held, .hold lock _ body =>
      held.all (before · lock) && respects before (lock :: held) body
  | held, .seq first second | held, .choice first second =>
      respects before held first && respects before held second
  | held, .many body => respects before held body

end LockProgram

/-- The run takes every lock after all it holds, releases the last one first and
ends without any. -/
def Orderly (before : Lock -> Lock -> Bool) :
    List Lock -> List (LockAction Lock) -> Prop
  | held, [] => held = []
  | held, .acquire lock _ :: rest =>
      (∀ outer ∈ held, before outer lock = true) ∧
        Orderly before (lock :: held) rest
  | held, .release lock :: rest =>
      ∃ outer, held = lock :: outer ∧ Orderly before outer rest

/-- A program that respects an order runs orderly. -/
theorem LockProgram.Runs.orderly_append
    {before : Lock -> Lock -> Bool}
    {program : LockProgram Lock}
    {run : List (LockAction Lock)}
    (runs : program.Runs run) :
    ∀ {held : List Lock} {rest : List (LockAction Lock)},
      program.respects before held = true -> Orderly before held rest ->
        Orderly before held (run ++ rest) := by
  induction runs with
  | skip => exact fun _ orderly => orderly
  | hold runs hypothesis =>
      intro held rest ordered orderly
      rw [LockProgram.respects, Bool.and_eq_true, List.all_eq_true] at ordered
      rw [List.cons_append, List.cons_append, List.append_assoc]
      exact ⟨ordered.1, hypothesis ordered.2 ⟨held, rfl, orderly⟩⟩
  | seq runs later first second =>
      intro held rest ordered orderly
      rw [LockProgram.respects, Bool.and_eq_true] at ordered
      rw [List.append_assoc]
      exact first ordered.1 (second ordered.2 orderly)
  | left runs hypothesis =>
      intro held rest ordered orderly
      rw [LockProgram.respects, Bool.and_eq_true] at ordered
      exact hypothesis ordered.1 orderly
  | right runs hypothesis =>
      intro held rest ordered orderly
      rw [LockProgram.respects, Bool.and_eq_true] at ordered
      exact hypothesis ordered.2 orderly
  | none => exact fun _ orderly => orderly
  | again runs later first second =>
      intro held rest ordered orderly
      rw [List.append_assoc]
      exact first ordered (second ordered orderly)

/-! ## Callers -/

/-- One caller: the guards it holds, the last first, and what is left of its
run. -/
structure LockCaller (Lock : Type u) where
  held : List (Lock × LockMode)
  left : List (LockAction Lock)

namespace LockCaller

/-- A caller between two runs. -/
def idle : LockCaller Lock := ⟨[], []⟩

/-- The locks the caller holds. -/
def locks (caller : LockCaller Lock) : List Lock :=
  caller.held.map Prod.fst

/-- The caller is about to take the lock. -/
def Wants (caller : LockCaller Lock) (lock : Lock) : Prop :=
  ∃ mode rest, caller.left = .acquire lock mode :: rest

end LockCaller

/-- The run acquires `inner` before it releases `outer`. -/
def Enters (outer inner : Lock) : List (LockAction Lock) -> Prop
  | [] => False
  | .acquire lock _ :: rest => lock = inner ∨ Enters outer inner rest
  | .release lock :: rest => lock ≠ outer ∧ Enters outer inner rest

/-- The caller holds `outer` and is to acquire `inner` before it releases it. -/
def LockCaller.Encloses
    (caller : LockCaller Lock)
    (outer inner : Lock) : Prop :=
  outer ∈ caller.locks ∧ Enters outer inner caller.left

/-- One step of one caller. -/
inductive LockStep (Name : Type v) (Lock : Type u)
  | call (name : Name) (run : List (LockAction Lock))
  | acquire (name : Name)
  | release (name : Name)
  | cancel (name : Name)

variable {Name : Type v} [DecidableEq Name]

/-- A caller starts a run of one of the programs, takes a lock no other holds
(or all hold shared), releases the last one it took, or gives a run up while it
holds none. -/
def LockSteps
    (programs : Set (LockProgram Lock))
    (callers : Name -> LockCaller Lock) :
    LockStep Name Lock -> (Name -> LockCaller Lock) -> Prop
  | .call name run, next =>
      callers name = .idle ∧ (∃ program ∈ programs, program.Runs run) ∧
        next = Function.update callers name ⟨[], run⟩
  | .acquire name, next =>
      ∃ lock mode rest, (callers name).left = .acquire lock mode :: rest ∧
        (∀ other, ∀ guard ∈ (callers other).held, guard.1 = lock ->
          guard.2 = .shared ∧ mode = .shared) ∧
        next = Function.update callers name
          ⟨(lock, mode) :: (callers name).held, rest⟩
  | .release name, next =>
      ∃ lock mode held rest, (callers name).left = .release lock :: rest ∧
        (callers name).held = (lock, mode) :: held ∧
        next = Function.update callers name ⟨held, rest⟩
  | .cancel name, next =>
      (callers name).held = [] ∧ next = Function.update callers name .idle

/-- The programs under any interleaving of any number of callers. -/
def lockMachine
    (Name : Type v) [DecidableEq Name]
    (programs : Set (LockProgram Lock)) :
    TransitionSystem (Name -> LockCaller Lock) (LockStep Name Lock) where
  initial callers := ∀ name, callers name = .idle
  step := LockSteps programs

/-- One caller waits for a lock the other holds. -/
def WaitsFor (callers : Name -> LockCaller Lock) (name other : Name) : Prop :=
  ∃ lock, (callers name).Wants lock ∧ lock ∈ (callers other).locks

/-- No callers wait for one another in a cycle. -/
def DeadlockFree (callers : Name -> LockCaller Lock) : Prop :=
  ∀ name, ¬ Relation.TransGen (WaitsFor callers) name name

/-! ## Lock orders -/

omit [DecidableEq Name] in
/-- Callers that take their locks along a rank never wait in a cycle. -/
theorem deadlockFree_of_rank
    {callers : Name -> LockCaller Lock}
    (rank : Lock -> Nat)
    (ranked : ∀ name lock, (callers name).Wants lock ->
      ∀ outer ∈ (callers name).locks, rank outer < rank lock) :
    DeadlockFree callers := by
  have rises : ∀ {name other : Name},
      Relation.TransGen (WaitsFor callers) name other ->
      ∃ first, (callers name).Wants first ∧
        ∀ last, (callers other).Wants last -> rank first < rank last := by
    intro name other path
    induction path with
    | single waits =>
        obtain ⟨first, wants, held⟩ := waits
        exact ⟨first, wants, fun last later => ranked _ last later first held⟩
    | tail _ waits hypothesis =>
        obtain ⟨first, wants, lower⟩ := hypothesis
        obtain ⟨middle, wantsMiddle, held⟩ := waits
        exact ⟨first, wants, fun last later =>
          (lower middle wantsMiddle).trans (ranked _ last later middle held)⟩
  intro name cycle
  obtain ⟨first, wants, lower⟩ := rises cycle
  exact (lower first wants).false

/-- What is left of a caller's run is orderly, and no lock is held twice. -/
structure LockCaller.Formed
    (caller : LockCaller Lock)
    (before : Lock -> Lock -> Bool) : Prop where
  orderly : Orderly before caller.locks caller.left
  nodup : caller.locks.Nodup

namespace LockCaller

variable {before : Lock -> Lock -> Bool} {caller : LockCaller Lock}

/-- A caller that has not begun is formed. -/
theorem Formed.idle : (LockCaller.idle : LockCaller Lock).Formed before :=
  ⟨rfl, List.nodup_nil⟩

/-- The lock a caller wants comes after all it holds. -/
theorem Formed.before_of_wants
    (formed : caller.Formed before)
    {lock : Lock}
    (wants : caller.Wants lock) :
    ∀ outer ∈ caller.locks, before outer lock = true := by
  obtain ⟨mode, rest, left⟩ := wants
  have orderly := formed.orderly
  rw [left] at orderly
  exact orderly.1

end LockCaller

section Machine

variable {programs : Set (LockProgram Lock)}
variable {callers next : Name -> LockCaller Lock}
variable {step : LockStep Name Lock}

/-- A step keeps every caller formed. -/
theorem formed_of_step
    {before : Lock -> Lock -> Bool}
    (irreflexive : ∀ lock, before lock lock = false)
    (respected : ∀ program ∈ programs, program.respects before [] = true)
    (formed : ∀ name, (callers name).Formed before)
    (steps : LockSteps programs callers step next) :
    ∀ name, (next name).Formed before := by
  have changes : ∀ {name : Name} {caller : LockCaller Lock},
      caller.Formed before ->
        ∀ other, (Function.update callers name caller other).Formed before := by
    intro name caller stays other
    by_cases same : other = name
    · rwa [same, Function.update_self]
    · rw [Function.update_of_ne same]
      exact formed other
  cases step with
  | call name run =>
      obtain ⟨-, ⟨program, member, runs⟩, rfl⟩ := steps
      refine changes ⟨?_, List.nodup_nil⟩
      have ended : Orderly before [] ([] : List (LockAction Lock)) := rfl
      have orderly := runs.orderly_append (respected program member) ended
      rwa [List.append_nil] at orderly
  | acquire name =>
      obtain ⟨lock, mode, rest, left, -, rfl⟩ := steps
      have orderly := (formed name).orderly
      rw [left] at orderly
      refine changes ⟨orderly.2, List.nodup_cons.mpr ⟨fun again => ?_,
        (formed name).nodup⟩⟩
      have itself := orderly.1 lock again
      rw [irreflexive] at itself
      contradiction
  | release name =>
      obtain ⟨lock, mode, held, rest, left, holds, rfl⟩ := steps
      have orderly := (formed name).orderly
      have nodup := (formed name).nodup
      rw [LockCaller.locks, holds, List.map_cons] at orderly nodup
      rw [left] at orderly
      obtain ⟨outer, same, orderly⟩ := orderly
      obtain ⟨-, rfl⟩ := List.cons.inj same
      exact changes ⟨orderly, (List.nodup_cons.mp nodup).2⟩
  | cancel name =>
      obtain ⟨-, rfl⟩ := steps
      exact changes .idle

/-- A caller comes to enclose a lock in another by taking the outer one. -/
theorem encloses_of_step
    {before : Lock -> Lock -> Bool}
    (formed : ∀ name, (callers name).Formed before)
    (steps : LockSteps programs callers step next)
    {outer inner : Lock}
    {name : Name}
    (encloses : (next name).Encloses outer inner) :
    (callers name).Encloses outer inner ∨
      step = .acquire name ∧ ∃ mode rest,
        (callers name).left = .acquire outer mode :: rest ∧
          Enters outer inner rest := by
  have changes : ∀ {other : Name} {caller : LockCaller Lock},
      next = Function.update callers other caller ->
        (callers name).Encloses outer inner ∨
          name = other ∧ caller.Encloses outer inner := by
    intro other caller changed
    by_cases same : name = other
    · rw [changed, same, Function.update_self] at encloses
      exact .inr ⟨same, encloses⟩
    · rw [changed, Function.update_of_ne same] at encloses
      exact .inl encloses
  cases step with
  | call other run =>
      obtain old | ⟨-, held, -⟩ := changes steps.2.2
      · exact .inl old
      · exact absurd held List.not_mem_nil
  | acquire other =>
      obtain ⟨lock, mode, rest, left, -, changed⟩ := steps
      obtain old | ⟨rfl, held, enters⟩ := changes changed
      · exact .inl old
      · rcases List.mem_cons.mp held with rfl | held
        · exact .inr ⟨rfl, mode, rest, left, enters⟩
        · exact .inl ⟨held, by rw [left]; exact .inr enters⟩
  | release other =>
      obtain ⟨lock, mode, held, rest, left, holds, changed⟩ := steps
      obtain old | ⟨rfl, still, enters⟩ := changes changed
      · exact .inl old
      · have nodup := (formed name).nodup
        rw [LockCaller.locks, holds, List.map_cons, List.nodup_cons] at nodup
        refine .inl ⟨?_, ?_⟩
        · rw [LockCaller.locks, holds]
          exact List.mem_cons_of_mem _ still
        · rw [left]
          exact ⟨fun same => nodup.1 (same ▸ still), enters⟩
  | cancel other =>
      obtain old | ⟨-, held, -⟩ := changes steps.2
      · exact .inl old
      · exact absurd held List.not_mem_nil

end Machine

/-! ## A caller on its own -/

/-- The guards a caller holds after a part of its run, when it finds every lock
free. -/
def runAlone [DecidableEq Lock] :
    List (Lock × LockMode) -> List (LockAction Lock) ->
      Option (List (Lock × LockMode))
  | held, [] => some held
  | held, .acquire lock mode :: rest =>
      if lock ∈ held.map Prod.fst then none
      else runAlone ((lock, mode) :: held) rest
  | [], .release _ :: _ => none
  | guard :: held, .release lock :: rest =>
      if guard.1 = lock then runAlone held rest else none

/-- A caller gets through a part of its run while no other holds a lock. -/
theorem reachable_of_runAlone
    [DecidableEq Lock]
    {programs : Set (LockProgram Lock)}
    {name : Name}
    {run rest : List (LockAction Lock)}
    {final : List (Lock × LockMode)} :
    ∀ {callers : Name -> LockCaller Lock},
      (lockMachine Name programs).Reachable callers ->
        (∀ other, other ≠ name -> (callers other).held = []) ->
        (callers name).left = run ++ rest ->
        runAlone (callers name).held run = some final ->
        (lockMachine Name programs).Reachable
          (Function.update callers name ⟨final, rest⟩) := by
  induction run with
  | nil =>
      intro callers reachable alone left runs
      obtain rfl := Option.some.inj runs
      rw [List.nil_append] at left
      rw [← left]
      exact (Function.update_eq_self name callers).symm ▸ reachable
  | cons action run hypothesis =>
      intro callers reachable alone left runs
      have again : ∀ {caller : LockCaller Lock},
          (lockMachine Name programs).Reachable
            (Function.update callers name caller) ->
          caller.left = run ++ rest -> runAlone caller.held run = some final ->
          (lockMachine Name programs).Reachable
            (Function.update callers name ⟨final, rest⟩) := by
        intro caller taken later runsOn
        have final := hypothesis taken (fun other apart => by
          rw [Function.update_of_ne apart]
          exact alone other apart)
          (by rw [Function.update_self, later])
          (by rw [Function.update_self, runsOn])
        rwa [Function.update_idem] at final
      cases action with
      | acquire lock mode =>
          unfold runAlone at runs
          split_ifs at runs with free
          refine again (.step (.acquire name) reachable
            ⟨lock, mode, run ++ rest, left, ?_, rfl⟩) rfl runs
          intro other guard member same
          by_cases own : other = name
          · rw [own] at member
            exact absurd (List.mem_map.mpr ⟨guard, member, same⟩) free
          · rw [alone other own] at member
            exact absurd member List.not_mem_nil
      | release lock =>
          cases holds : (callers name).held with
          | nil =>
              rw [holds] at runs
              contradiction
          | cons guard held =>
              rw [holds, runAlone] at runs
              split_ifs at runs with same
              exact again (.step (.release name) reachable
                ⟨guard.1, guard.2, held, run ++ rest, by rw [left, same]; rfl,
                  holds, rfl⟩) rfl runs

/-! ## Two locks held in both orders -/

/-- A caller takes `outer` around `inner` only while none is inside the
converse block. -/
def EntersApart
    (outer inner : Lock)
    (callers : Name -> LockCaller Lock) :
    LockStep Name Lock -> Prop
  | .acquire name => ∀ mode rest,
      (callers name).left = .acquire outer mode :: rest ->
        Enters outer inner rest -> ∀ other,
          ¬ (callers other).Encloses inner outer
  | _ => True

/-- No two callers hold the two locks in converse orders. -/
def Apart (outer inner : Lock) (callers : Name -> LockCaller Lock) : Prop :=
  ∀ name other, (callers name).Encloses outer inner ->
    ¬ (callers other).Encloses inner outer

/-- Callers that enter two converse blocks only one after the other are never
inside both. -/
theorem apart_of_step
    {programs : Set (LockProgram Lock)}
    {callers next : Name -> LockCaller Lock}
    {step : LockStep Name Lock}
    {before : Lock -> Lock -> Bool}
    {outer inner : Lock}
    (distinct : outer ≠ inner)
    (formed : ∀ name, (callers name).Formed before)
    (apart : Apart outer inner callers)
    (steps : LockSteps programs callers step next)
    (enters : EntersApart outer inner callers step)
    (converse : EntersApart inner outer callers step) :
    Apart outer inner next := by
  intro name other one two
  obtain one | ⟨rfl, mode, rest, left, inside⟩ :=
    encloses_of_step formed steps one
  · obtain two | ⟨rfl, mode, rest, left, inside⟩ :=
      encloses_of_step formed steps two
    · exact apart name other one two
    · exact converse mode rest left inside name one
  · have none := enters mode rest left inside
    obtain two | ⟨same, mode', rest', left', -⟩ :=
      encloses_of_step formed steps two
    · exact none other two
    · obtain rfl := LockStep.acquire.inj same
      rw [left] at left'
      exact distinct (LockAction.acquire.inj (List.cons.inj left').1).1

end Library
