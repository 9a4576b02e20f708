import Marsh.Shellmux.CommandLedger

/-!
# Sound ledgers

What a ledger of commands records is consistent by itself, whatever the session
does: each operation keeps it so.
-/

namespace Marsh
namespace Shellmux

namespace Ledger

/-- Whether a command is at a stage. -/
def Has (ledger : Ledger) (command : Nat) (stage : Stage) : Prop :=
  command < ledger.count ∧ ledger.stage command = stage

/-- What the ledger records by itself: no two commands share a stage other than
the last, a callback was given its command's code, and each command announced is
finished and announced once, for its own sandbox. -/
structure Sound (ledger : Ledger) : Prop where
  apart : ∀ command other stage, ledger.Has command stage ->
    ledger.Has other stage -> stage ≠ .finished -> command = other
  codes : ∀ call ∈ ledger.calls, ∃ command,
    ledger.Has command .finished ∧ ledger.attached call.1 = some command ∧
      ledger.codes command = some call.2
  shells : ∀ command shell, (some command, shell) ∈ ledger.announced ->
    ledger.Has command .finished ∧ ledger.shells command = shell
  single : (ledger.announced.filterMap Prod.fst).Nodup
  launched : ledger.misreported = []

variable {ledger : Ledger} {command other : Nat} {stage : Stage}

theorem Has.stage_inj
    {otherStage : Stage}
    (has : ledger.Has command stage)
    (again : ledger.Has command otherStage) : stage = otherStage :=
  has.2.symm.trans again.2

/-- The command at a stage is the only one. -/
theorem Sound.commandAt_eq
    (sound : ledger.Sound)
    (has : ledger.Has command stage)
    (live : stage ≠ .finished) : ledger.commandAt stage = some command := by
  cases found : ledger.commandAt stage with
  | none =>
      rw [commandAt, List.find?_eq_none] at found
      exact absurd (decide_eq_true has.2)
        (found command (List.mem_range.mpr has.1))
  | some other =>
      rw [commandAt] at found
      have below := List.mem_range.mp (List.mem_of_find?_eq_some found)
      have holds := List.find?_some found
      have same := of_decide_eq_true holds
      rw [sound.apart other command stage ⟨below, same⟩ has live]

theorem Has.of_move
    {moved : Stage}
    (has : (ledger.move command moved).Has other stage) :
    (other = command ∧ stage = moved) ∨
      (other ≠ command ∧ ledger.Has other stage) := by
  obtain ⟨below, same⟩ := has
  by_cases own : other = command
  · refine .inl ⟨own, ?_⟩
    rw [← same, own]
    exact Function.update_self _ _ _
  · refine .inr ⟨own, below, ?_⟩
    rw [← same]
    exact (Function.update_of_ne own _ _).symm

theorem Has.move_of_ne
    (has : ledger.Has other stage)
    (apart : other ≠ command)
    (moved : Stage) : (ledger.move command moved).Has other stage :=
  ⟨has.1, (Function.update_of_ne apart _ _).trans has.2⟩

theorem Has.move_self
    (has : ledger.Has command stage)
    (moved : Stage) : (ledger.move command moved).Has command moved :=
  ⟨has.1, Function.update_self _ _ _⟩

/-- A command at another stage is not moved. -/
theorem Has.move_of_stage_ne
    {otherStage : Stage}
    (has : ledger.Has other otherStage)
    (mover : ledger.Has command stage)
    (apart : otherStage ≠ stage)
    (moved : Stage) : (ledger.move command moved).Has other otherStage := by
  refine has.move_of_ne ?_ moved
  rintro rfl
  exact apart (has.stage_inj mover)

/-- A command moves to a stage at which none is. -/
theorem Sound.move
    (sound : ledger.Sound)
    (has : ledger.Has command stage)
    (live : stage ≠ .finished)
    {moved : Stage}
    (free : ∀ other, ¬ ledger.Has other moved) :
    (ledger.move command moved).Sound where
  apart first second shared holds otherHolds unfinished := by
    rcases holds.of_move with ⟨own, rfl⟩ | ⟨-, old⟩ <;>
      rcases otherHolds.of_move with ⟨otherOwn, otherMoved⟩ | ⟨-, otherOld⟩
    · rw [own, otherOwn]
    · exact absurd otherOld (free second)
    · exact absurd (otherMoved ▸ old) (free first)
    · exact sound.apart first second shared old otherOld unfinished
  codes call member := by
    obtain ⟨called, finished, attached, code⟩ := sound.codes call member
    exact ⟨called, finished.move_of_stage_ne has live.symm moved, attached,
      code⟩
  shells called shell member := by
    obtain ⟨finished, own⟩ := sound.shells called shell member
    exact ⟨finished.move_of_stage_ne has live.symm moved, own⟩
  single := sound.single
  launched := sound.launched

/-! ### Callbacks -/

section Attach

variable (ledger : Ledger) (done attachee : Option Nat)

@[simp] theorem count_attach : (ledger.attach done attachee).count =
    ledger.count := by
  cases done <;> rfl

@[simp] theorem shells_attach : (ledger.attach done attachee).shells =
    ledger.shells := by
  cases done <;> rfl

@[simp] theorem stage_attach : (ledger.attach done attachee).stage =
    ledger.stage := by
  cases done <;> rfl

@[simp] theorem codes_attach : (ledger.attach done attachee).codes =
    ledger.codes := by
  cases done <;> rfl

@[simp] theorem announced_attach : (ledger.attach done attachee).announced =
    ledger.announced := by
  cases done <;> rfl

@[simp] theorem calls_attach : (ledger.attach done attachee).calls =
    ledger.calls := by
  cases done <;> rfl

@[simp] theorem misreported_attach :
    (ledger.attach done attachee).misreported = ledger.misreported := by
  cases done <;> rfl

theorem has_attach : (ledger.attach done attachee).Has command stage ↔
    ledger.Has command stage := by
  rw [Has, Has, count_attach, stage_attach]

/-- What was attached stays attached. -/
theorem attached_attach
    (fresh : ∀ given, done = some given -> ledger.attached given = none)
    {callback : Nat}
    (attached : ledger.attached callback = some command) :
    (ledger.attach done attachee).attached callback = some command := by
  cases done with
  | none => exact attached
  | some given =>
      have apart : callback ≠ given := by
        rintro rfl
        rw [fresh _ rfl] at attached
        contradiction
      exact (Function.update_of_ne apart _ _).trans attached

/-- What is attached was so before, or is the new callback. -/
theorem of_attached_attach
    {callback : Nat}
    (attached : (ledger.attach done attachee).attached callback = some command) :
    ledger.attached callback = some command ∨ done = some callback := by
  cases done with
  | none => exact .inl attached
  | some given =>
      by_cases same : callback = given
      · exact .inr (congrArg some same.symm)
      · exact .inl ((Function.update_of_ne same _ _).symm.trans attached)

end Attach

/-- A new callback is attached. -/
theorem Sound.attach
    (sound : ledger.Sound)
    {done : Option Nat}
    (attachee : Option Nat)
    (fresh : ∀ given, done = some given -> ledger.attached given = none) :
    (ledger.attach done attachee).Sound where
  apart first second shared holds otherHolds :=
    sound.apart first second shared ((has_attach _ _ _).mp holds)
      ((has_attach _ _ _).mp otherHolds)
  codes call member := by
    rw [calls_attach] at member
    obtain ⟨called, finished, attached, code⟩ := sound.codes call member
    refine ⟨called, (has_attach _ _ _).mpr finished,
      ledger.attached_attach _ _ fresh attached, ?_⟩
    rw [codes_attach, code]
  shells called shell member := by
    rw [announced_attach] at member
    rw [has_attach, shells_attach]
    exact sound.shells called shell member
  single := by
    rw [announced_attach]
    exact sound.single
  launched := by
    rw [misreported_attach]
    exact sound.launched

/-! ### The operations -/

section Publish

variable {uid : String} {shell : Sandbox} {done : Option Nat}

theorem has_publish :
    (ledger.publish uid shell done).Has other stage ↔
      (other = ledger.count ∧ stage = .running uid) ∨
        ledger.Has other stage := by
  rw [publish, has_attach]
  constructor
  · rintro ⟨below, same⟩
    by_cases own : other = ledger.count
    · refine .inl ⟨own, ?_⟩
      rw [← same, own]
      exact Function.update_self _ _ _
    · have older : other < ledger.count :=
        Nat.lt_of_le_of_ne (Nat.le_of_lt_succ below) own
      refine .inr ⟨older, ?_⟩
      rw [← same]
      exact (Function.update_of_ne own _ _).symm
  · rintro (⟨rfl, rfl⟩ | ⟨below, same⟩)
    · exact ⟨Nat.lt_succ_self _, Function.update_self _ _ _⟩
    · exact ⟨Nat.lt_succ_of_lt below,
        (Function.update_of_ne (Nat.ne_of_lt below) _ _).trans same⟩

theorem shells_publish_self :
    (ledger.publish uid shell done).shells ledger.count = shell := by
  rw [publish, shells_attach]
  exact Function.update_self _ _ _

theorem shells_publish_of_lt
    (below : other < ledger.count) :
    (ledger.publish uid shell done).shells other = ledger.shells other := by
  rw [publish, shells_attach]
  exact Function.update_of_ne (Nat.ne_of_lt below) _ _

theorem attached_publish_self
    {given : Nat} :
    (ledger.publish uid shell (some given)).attached given =
      some ledger.count :=
  Function.update_self _ _ _

theorem attached_publish
    (fresh : ∀ given, done = some given -> ledger.attached given = none)
    {callback : Nat}
    (attached : ledger.attached callback = some other) :
    (ledger.publish uid shell done).attached callback = some other := by
  rw [Ledger.publish]
  refine attached_attach _ _ _ ?_ ?_
  · exact fresh
  · exact attached

theorem of_attached_publish
    {callback : Nat}
    (attached : (ledger.publish uid shell done).attached callback = some other) :
    ledger.attached callback = some other ∨ done = some callback := by
  rw [Ledger.publish] at attached
  rcases of_attached_attach _ _ _ attached with old | new
  · exact .inl old
  · exact .inr new

@[simp] theorem codes_publish :
    (ledger.publish uid shell done).codes = ledger.codes :=
  codes_attach _ _ _

@[simp] theorem announced_publish :
    (ledger.publish uid shell done).announced = ledger.announced :=
  announced_attach _ _ _

@[simp] theorem calls_publish :
    (ledger.publish uid shell done).calls = ledger.calls :=
  calls_attach _ _ _

@[simp] theorem misreported_publish :
    (ledger.publish uid shell done).misreported = ledger.misreported :=
  misreported_attach _ _ _

/-- A command is published in a row in which none runs. -/
theorem Sound.publish
    (sound : ledger.Sound)
    (free : ∀ other, ¬ ledger.Has other (.running uid))
    (fresh : ∀ given, done = some given -> ledger.attached given = none) :
    (ledger.publish uid shell done).Sound where
  apart first second shared holds otherHolds unfinished := by
    rcases has_publish.mp holds with ⟨own, rfl⟩ | old <;>
      rcases has_publish.mp otherHolds with ⟨otherOwn, same⟩ | otherOld
    · rw [own, otherOwn]
    · exact absurd otherOld (free second)
    · exact absurd (same ▸ old) (free first)
    · exact sound.apart first second shared old otherOld unfinished
  codes call member := by
    rw [calls_publish] at member
    obtain ⟨called, finished, attached, code⟩ := sound.codes call member
    refine ⟨called, has_publish.mpr (.inr finished),
      attached_publish fresh attached, ?_⟩
    rw [codes_publish]
    exact code
  shells called own member := by
    rw [announced_publish] at member
    obtain ⟨finished, same⟩ := sound.shells called own member
    exact ⟨has_publish.mpr (.inr finished),
      (shells_publish_of_lt finished.1).trans same⟩
  single := by
    rw [announced_publish]
    exact sound.single
  launched := by
    rw [misreported_publish]
    exact sound.launched

end Publish

/-- The exit code of a command that was reaped is recorded. -/
theorem Sound.conclude
    (sound : ledger.Sound)
    {conclusion : Conclusion}
    (has : ledger.Has command (.reaped conclusion))
    (free : ∀ other, ¬ ledger.Has other .announcing)
    (exitCode : Int) :
    ({ ledger.move command .announcing with
      codes := Function.update ledger.codes command
        (some exitCode) } : Ledger).Sound where
  apart := (sound.move has (by simp) free).apart
  codes call member := by
    obtain ⟨called, finished, attached, code⟩ :=
      (sound.move has (by simp) free).codes call member
    refine ⟨called, finished, attached, ?_⟩
    have apart : called ≠ command := by
      rintro rfl
      rcases finished.of_move with ⟨-, same⟩ | ⟨apart, -⟩
      · contradiction
      · exact apart rfl
    exact (Function.update_of_ne apart _ _).trans code
  shells := (sound.move has (by simp) free).shells
  single := sound.single
  launched := sound.launched

/-- A command is announced, and its callback called. -/
theorem Sound.announce
    (sound : ledger.Sound)
    (has : ledger.Has command .announcing)
    {shell : Sandbox}
    {exitCode : Int}
    {done : Option Nat}
    (own : ledger.shells command = shell)
    (code : ledger.codes command = some exitCode)
    (attached : ∀ given, done = some given ->
      ledger.attached given = some command) :
    (({ ledger.move command .finished with
        announced := ledger.announced ++ [(some command, shell)] } : Ledger).call
      exitCode done).Sound where
  apart first second shared holds otherHolds unfinished := by
    have moved : (ledger.move command .finished).Has first shared := holds
    have otherMoved : (ledger.move command .finished).Has second shared :=
      otherHolds
    rcases moved.of_move with ⟨-, same⟩ | ⟨-, old⟩
    · exact absurd same unfinished
    · rcases otherMoved.of_move with ⟨-, same⟩ | ⟨-, otherOld⟩
      · exact absurd same unfinished
      · exact sound.apart first second shared old otherOld unfinished
  codes call member := by
    rcases List.mem_append.mp member with new | old
    · obtain ⟨given, holds, rfl⟩ := List.mem_map.mp new
      exact ⟨command, has.move_self .finished,
        attached given (Option.mem_toList.mp holds), code⟩
    · obtain ⟨called, finished, others⟩ := sound.codes call old
      exact ⟨called, finished.move_of_stage_ne has (by simp) .finished, others⟩
  shells called other member := by
    rcases List.mem_append.mp member with old | new
    · obtain ⟨finished, same⟩ := sound.shells called other old
      exact ⟨finished.move_of_stage_ne has (by simp) .finished, same⟩
    · obtain ⟨rfl, rfl⟩ : called = command ∧ other = shell := by
        simpa using new
      exact ⟨has.move_self .finished, own⟩
  single := by
    change ((ledger.announced ++ [(some command, shell)]).filterMap
      Prod.fst).Nodup
    rw [List.filterMap_append, List.nodup_append]
    refine ⟨sound.single, List.nodup_singleton command, ?_⟩
    rintro called member other single rfl
    obtain rfl := List.mem_singleton.mp single
    obtain ⟨⟨_, other⟩, announced, rfl⟩ := List.mem_filterMap.mp member
    exact absurd (has.stage_inj (sound.shells _ other announced).1) (by simp)
  launched := sound.launched

/-- A failed launch that calls no callback is announced. -/
theorem Sound.announceFailure
    (sound : ledger.Sound)
    (shell : Sandbox)
    (exitCode : Int) :
    (ledger.announceFailure shell exitCode none).Sound where
  apart := sound.apart
  codes := sound.codes
  shells command other member := by
    rcases List.mem_append.mp member with old | new
    · exact sound.shells command other old
    · simp at new
  single := by
    change ((ledger.announced ++ [(none, shell)]).filterMap Prod.fst).Nodup
    rw [List.filterMap_append]
    simpa using sound.single
  launched := sound.launched

theorem Sound.empty : Ledger.empty.Sound where
  apart _ _ _ has := absurd has.1 (Nat.not_lt_zero _)
  codes _ member := absurd member List.not_mem_nil
  shells _ _ member := absurd member List.not_mem_nil
  single := List.nodup_nil
  launched := rfl

end Ledger

end Shellmux
end Marsh
