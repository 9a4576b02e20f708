import Mathlib.Data.List.Forall2
import Marsh.Library.Text
import Marsh.Policy.GitCorrectness

/-!
# The fixes a git denial lists

A fix is a text: a principal, a verb, a resource and perhaps what the fix is
for.  Read back as an event, it is meant to be granted and to take the refused
candidate out of its cell.  Some denials list only fixes that are refused
themselves.
-/

namespace Marsh
namespace Policy
namespace Git

open Library Validator

/-! ## Reading a fix -/

/-- The verbs a fix may name, with their actions. -/
def verbs : List (String × Action) :=
  [("read", .read),
    ("edit", .edit),
    ("stage", .stage),
    ("unstage", .unstage),
    ("commit", .commit none),
    ("checkout", .checkout),
    ("stash", .stash),
    ("delete", .delete),
    ("clean", .clean),
    ("diff", .diff),
    ("history", .history)]

/-- What a fix may say after its resource. -/
def purposes : List String :=
  ["",
    " before staging",
    " before staging again",
    " before stashing",
    " before unstaging",
    " before committing",
    " before deleting"]

/-- The text of a fix reads as an event: its principal, the verb of its action
and its resource, then perhaps a purpose. -/
def Spells (text : String) (event : Event) : Prop :=
  ∃ verb, (verb, event.action) ∈ verbs ∧
    ∃ purpose ∈ purposes,
      text = event.principal.value ++ (" " ++ verb ++ " ") ++
        event.resource.display ++ purpose

/-- Every event is granted after the history and the events before it. -/
def GrantedInOrder
    [LinearOrder TestNode] [LinearOrder Regex] [LinearOrder TransitionNode] :
    List Event -> List Event -> Prop
  | _, [] => True
  | history, event :: events =>
      gitDecision history event = some .grant ∧
        GrantedInOrder (history ++ [event]) events

/-! ## The cell that is reported -/

/-- The first cell of the table that an action meets. -/
def ResourceState.reported
    (state : ResourceState)
    (principal : Principal)
    (action : Action) : Option Cell :=
  cells.find? fun cell =>
    Decidable.decide (probeAction action = cell.action) &&
      cell.state.holds (state.row.view principal)
        (Decidable.decide (state.ClaimedByOther principal))

/-- The cell whose denial a candidate gets after a history. -/
def reportedCell (history : List Event) (candidate : Event) : Option Cell :=
  (stateOf candidate.resource history).reported candidate.principal
    candidate.action

/-- Some fix the policy lists, or some of them in the order listed, is granted
after the history and leads out of the cell that was reported. -/
def Actionable
    [LinearOrder TestNode] [LinearOrder Regex] [LinearOrder TransitionNode]
    (history : List Event)
    (candidate : Event)
    (allowedFixes : List String) : Prop :=
  ∃ texts events, texts.Sublist allowedFixes ∧
    List.Forall₂ Spells texts events ∧
    GrantedInOrder history events ∧
    reportedCell (history ++ events) candidate ≠
      reportedCell history candidate

/-- The denials without a fix: a clean resource has nothing to unstage, and
another principal's claim refuses the edits, checkouts and stashes that the
fixes of a principal's own rows name. -/
def stuckCell (claimed : Prop) : Action -> RowView -> Prop
  | .unstage, .clean => True
  | .stage, .clean | .stash, .clean | .commit _, .clean => claimed
  | .delete, .unstagedSelf => claimed
  | _, _ => False

/-- Whether an action is denied without a fix. -/
def ResourceState.Stuck
    (state : ResourceState)
    (principal : Principal)
    (action : Action) : Prop :=
  stuckCell (state.ClaimedByOther principal) action (state.row.view principal)

/-! ## A text reads in one way -/

/-- What stands between a principal and a resource, with the action it names. -/
def verbWords : List (List Char × Action) :=
  verbs.map fun entry => ((" " ++ entry.1 ++ " ").toList, entry.2)

/-- What may stand after a resource. -/
def purposeWords : List (List Char) := purposes.map String.toList

/-- No verb ends in another one. -/
theorem eq_of_isSuffix_verbWords :
    ∀ verb ∈ verbWords, ∀ other ∈ verbWords, verb.1 <:+ other.1 ->
      verb = other := by
  decide +kernel

/-- No purpose ends in another one. -/
theorem eq_of_isSuffix_purposeWords :
    ∀ purpose ∈ purposeWords, ∀ other ∈ purposeWords, purpose <:+ other ->
      purpose = [] ∨ purpose = other := by
  decide +kernel

/-- However a purpose is rotated, it does not end in a verb. -/
theorem not_isSuffix_rotated_purposeWords :
    ∀ purpose ∈ purposeWords, purpose ≠ [] -> ∀ verb ∈ verbWords,
      verb.1.length ≤ purpose.length ∧
        ∀ count ≤ purpose.length,
          ¬verb.1 <:+ purpose.drop count ++ purpose.take count := by
  decide +kernel

/-- Of two readings of a text, the purpose of the one is not the end of the
purpose of the other. -/
theorem purpose_eq_of_isSuffix
    {first second resource purpose other : List Char}
    {verb otherVerb : List Char × Action}
    (verbMember : verb ∈ verbWords)
    (purposeMember : purpose ∈ purposeWords)
    (otherMember : other ∈ purposeWords)
    (ends : purpose <:+ other)
    (same : first ++ verb.1 ++ resource ++ purpose =
      second ++ otherVerb.1 ++ resource ++ other) :
    purpose = other := by
  rcases eq_of_isSuffix_purposeWords purpose purposeMember other otherMember
    ends with rfl | same
  · by_contra different
    have nonempty : other ≠ [] := fun empty => different empty.symm
    -- the resource ends the text, with and without the purpose after it
    have resourceEnds : resource <:+ resource ++ other := by
      have shorter : resource.length ≤ (resource ++ other).length := by simp
      have alone := List.suffix_append (first ++ verb.1) resource
      rw [List.append_nil] at same
      rw [same, List.append_assoc] at alone
      exact List.suffix_of_suffix_length_le alone (List.suffix_append _ _)
        shorter
    obtain ⟨block, blockEq⟩ := resourceEnds
    obtain ⟨front, back, frontEq, backEq⟩ := Text.exists_rotation blockEq
    have cancelled : first ++ verb.1 = second ++ otherVerb.1 ++ block := by
      rw [List.append_nil, List.append_assoc _ resource, ← blockEq,
        ← List.append_assoc] at same
      exact List.append_cancel_right same
    have rotated := not_isSuffix_rotated_purposeWords other otherMember nonempty
      verb verbMember
    have lengthEq : block.length = other.length := by
      rw [frontEq, backEq, List.length_append, List.length_append, Nat.add_comm]
    have verbEnds : verb.1 <:+ block := by
      have alone := List.suffix_append first verb.1
      rw [cancelled] at alone
      exact List.suffix_of_suffix_length_le alone (List.suffix_append _ _)
        (lengthEq ▸ rotated.1)
    refine rotated.2 back.length ?_ ?_
    · rw [backEq, List.length_append]
      exact Nat.le_add_right _ _
    · rw [backEq, List.drop_left, List.take_left, ← frontEq]
      exact verbEnds
  · exact same

/-- Two readings of a text about one resource name one principal and one
action. -/
theorem reading_eq
    {first second resource purpose otherPurpose : List Char}
    {verb otherVerb : List Char × Action}
    (verbMember : verb ∈ verbWords)
    (otherVerbMember : otherVerb ∈ verbWords)
    (purposeMember : purpose ∈ purposeWords)
    (otherMember : otherPurpose ∈ purposeWords)
    (same : first ++ verb.1 ++ resource ++ purpose =
      second ++ otherVerb.1 ++ resource ++ otherPurpose) :
    first = second ∧ verb = otherVerb := by
  have purposes : purpose = otherPurpose := by
    have ends := List.suffix_append (first ++ verb.1 ++ resource) purpose
    have otherEnds :=
      List.suffix_append (second ++ otherVerb.1 ++ resource) otherPurpose
    rw [← same] at otherEnds
    rcases List.suffix_or_suffix_of_suffix ends otherEnds with inside | inside
    · exact purpose_eq_of_isSuffix verbMember purposeMember otherMember inside
        same
    · exact (purpose_eq_of_isSuffix otherVerbMember otherMember purposeMember
        inside same.symm).symm
  rw [purposes] at same
  have before := List.append_cancel_right (List.append_cancel_right same)
  have verbs : verb = otherVerb := by
    have ends := List.suffix_append first verb.1
    have otherEnds := List.suffix_append second otherVerb.1
    rw [← before] at otherEnds
    rcases List.suffix_or_suffix_of_suffix ends otherEnds with inside | inside
    · exact eq_of_isSuffix_verbWords verb verbMember otherVerb otherVerbMember
        inside
    · exact (eq_of_isSuffix_verbWords otherVerb otherVerbMember verb verbMember
        inside).symm
  rw [verbs] at before
  exact ⟨List.append_cancel_right before, verbs⟩

/-- The letters of a reading. -/
theorem Spells.letters
    {text : String}
    {event : Event}
    (spells : Spells text event) :
    ∃ verb ∈ verbWords, verb.2 = event.action ∧
      ∃ purpose ∈ purposeWords,
        text.toList = event.principal.value.toList ++ verb.1 ++
          event.resource.display.toList ++ purpose := by
  obtain ⟨verb, verbMember, purpose, purposeMember, textEq⟩ := spells
  refine ⟨_, List.mem_map_of_mem verbMember, rfl, _,
    List.mem_map_of_mem purposeMember, ?_⟩
  rw [textEq, String.toList_append, String.toList_append, String.toList_append]

/-- Two readings of a text about one resource are the same. -/
theorem Spells.unique
    {text : String}
    {left right : Event}
    (leftSpells : Spells text left)
    (rightSpells : Spells text right)
    (sameResource : left.resource = right.resource) :
    left = right := by
  obtain ⟨leftVerb, leftMember, leftAction, leftPurpose, leftPurposeMember,
    leftEq⟩ := leftSpells.letters
  obtain ⟨rightVerb, rightMember, rightAction, rightPurpose, rightPurposeMember,
    rightEq⟩ := rightSpells.letters
  rw [leftEq, sameResource] at rightEq
  obtain ⟨principals, rfl⟩ := reading_eq leftMember rightMember
    leftPurposeMember rightPurposeMember rightEq
  obtain ⟨⟨leftPrincipal⟩, _, _⟩ := left
  obtain ⟨⟨rightPrincipal⟩, _, _⟩ := right
  rw [Event.mk.injEq, Principal.mk.injEq]
  exact ⟨String.toList_inj.mp principals, leftAction.symm.trans rightAction,
    sameResource⟩

/-! ## Where a fix is granted -/

section Cells

variable {state : ResourceState} {principal : Principal} {action : Action}

/-- What the reported cell asks of the resource, over every view and claim. -/
theorem map_state_find?_cells
    (action : Action)
    (view : RowView)
    (claimed : Bool) :
    (cells.find? fun cell => decide (probeAction action = cell.action) &&
        cell.state.holds view claimed).map Cell.state =
      if (rowCell action view).isSome then some (.row view)
      else if claimed && (claimCell action).isSome then some .claimedByOther
      else none := by
  cases action <;> cases view <;> cases claimed <;> rfl

theorem ResourceState.map_state_reported
    (state : ResourceState)
    (principal : Principal)
    (action : Action) :
    (state.reported principal action).map Cell.state =
      if (rowCell action (state.row.view principal)).isSome then
        some (.row (state.row.view principal))
      else if Decidable.decide (state.ClaimedByOther principal) &&
          (claimCell action).isSome then
        some .claimedByOther
      else none :=
  map_state_find?_cells action _ _

/-- A row cell is left with the view it asks for. -/
theorem ResourceState.reported_ne_of_view
    {after : ResourceState}
    (denied : (rowCell action (state.row.view principal)).isSome = true)
    (moved : after.row.view principal ≠ state.row.view principal) :
    after.reported principal action ≠ state.reported principal action := by
  intro same
  have states := congrArg (Option.map Cell.state) same
  rw [map_state_reported, map_state_reported, if_pos denied] at states
  split_ifs at states
  · exact moved (CellState.row.inj (Option.some.inj states))
  · cases states

/-- A claim cell is left with the claim. -/
theorem ResourceState.reported_ne_of_claim
    {after : ResourceState}
    (free : rowCell action (state.row.view principal) = none)
    (denied : (claimCell action).isSome = true)
    (claimed : state.ClaimedByOther principal)
    (moved : ¬after.ClaimedByOther principal) :
    after.reported principal action ≠ state.reported principal action := by
  intro same
  have states := congrArg (Option.map Cell.state) same
  rw [map_state_reported, map_state_reported, free, denied,
    decide_eq_true claimed, decide_eq_false moved] at states
  cases forbidden : (rowCell action (after.row.view principal)).isSome with
  | true => rw [forbidden] at states; cases states
  | false => rw [forbidden] at states; cases states

end Cells

/-! ## The fix of each cell -/

/-- An interpolated string is shown as it is. -/
@[simp] theorem toString_eq (text : String) : toString text = text := rfl

/-- A denial lists a fix: a principal's action, with what it is for. -/
def Lists
    (allowedFixes : List String)
    (principal : String)
    (action : Action)
    (resource : String) : Prop :=
  ∃ verb, (verb, action) ∈ verbs ∧ ∃ purpose ∈ purposes,
    principal ++ (" " ++ verb ++ " ") ++ resource ++ purpose ∈ allowedFixes

/-- The action by which the acting principal leaves a row cell of its own. -/
def RowView.fix : RowView -> Action -> Action
  | .clean, _ => .edit
  | .staged, .delete => .commit none
  | .staged, _ => .unstage
  | .unstagedSelf, .delete => .checkout
  | .unstagedSelf, _ => .stage
  | .unstagedOther, _ => .stage

/-- The denial of a row cell lists that action, unless it is the unstaging of a
clean resource or another principal has the resource unstaged. -/
theorem lists_fix
    {action : Action}
    {view : RowView}
    {denial : Diagnostic GitContext}
    (found : rowCell action view = some denial)
    (own : view ≠ .unstagedOther)
    (unstages : ¬(action = .unstage ∧ view = .clean))
    (context : GitContext) :
    Lists (denial context).2 context.principal (view.fix action)
      context.resource := by
  cases view with
  | unstagedOther => exact absurd rfl own
  | clean =>
      cases action
      case stage =>
        cases found
        exact ⟨"edit", by simp [verbs, RowView.fix], " before staging",
          by simp [purposes], by simp [stageClean, String.append_assoc]⟩
      case stash =>
        cases found
        exact ⟨"edit", by simp [verbs, RowView.fix], " before stashing",
          by simp [purposes], by simp [stashClean, String.append_assoc]⟩
      case commit =>
        cases found
        exact ⟨"edit", by simp [verbs, RowView.fix], "",
          by simp [purposes], by simp [commitClean, String.append_assoc]⟩
      case unstage => exact absurd ⟨rfl, rfl⟩ unstages
      all_goals cases found
  | staged =>
      cases action
      case stage =>
        cases found
        exact ⟨"unstage", by simp [verbs, RowView.fix],
          " before staging again",
          by simp [purposes], by simp [stageStaged, String.append_assoc]⟩
      case stash =>
        cases found
        exact ⟨"unstage", by simp [verbs, RowView.fix], " before stashing",
          by simp [purposes], by simp [stashStaged, String.append_assoc]⟩
      case delete =>
        cases found
        exact ⟨"commit", by simp [verbs, RowView.fix], " before deleting",
          by simp [purposes], by simp [deleteStaged, String.append_assoc]⟩
      all_goals cases found
  | unstagedSelf =>
      cases action
      case unstage =>
        cases found
        exact ⟨"stage", by simp [verbs, RowView.fix], " before unstaging",
          by simp [purposes], by simp [unstageSelf, String.append_assoc]⟩
      case commit =>
        cases found
        exact ⟨"stage", by simp [verbs, RowView.fix], " before committing",
          by simp [purposes], by simp [commitSelf, String.append_assoc]⟩
      case delete =>
        cases found
        exact ⟨"checkout", by simp [verbs, RowView.fix], " before deleting",
          by simp [purposes], by simp [deleteSelf, String.append_assoc]⟩
      all_goals cases found

/-- Where another principal has the resource unstaged, its staging is listed. -/
theorem lists_stage_of_owner
    {action : Action}
    {denial : Diagnostic GitContext}
    (found : rowCell action .unstagedOther = some denial)
    (context : GitContext) :
    Lists (denial context).2 context.owner .stage context.resource := by
  refine ⟨"stage", by simp [verbs], "", by simp [purposes], ?_⟩
  have same : (denial context).2 =
      opf context.principal context.resource context.owner := by
    cases action <;> cases found <;> rfl
  rw [same]
  simp only [opf, String.append_assoc, String.append_empty]
  exact List.mem_cons_self

/-- Where another principal read the resource last, reading it is listed. -/
theorem lists_read
    {action : Action}
    {denial : Diagnostic GitContext}
    (found : claimCell action = some denial)
    (context : GitContext) :
    Lists (denial context).2 context.principal .read context.resource := by
  refine ⟨"read", by simp [verbs], "", by simp [purposes], ?_⟩
  have same : (denial context).2 = rcf context.principal context.resource := by
    cases action <;> cases found <;> rfl
  rw [same]
  simp only [rcf, String.append_assoc, String.append_empty]
  exact List.mem_cons_self

/-! ## Denials that can be escaped -/

theorem ResourceState.decide_eq_grant_iff
    {state : ResourceState}
    {candidate : Event} :
    state.decide candidate = .grant ↔
      state.forbiddenCell candidate.principal candidate.action = none := by
  rw [decide]
  cases state.forbiddenCell candidate.principal candidate.action <;> simp

theorem ResourceState.decide_eq_deny_iff
    {state : ResourceState}
    {candidate : Event}
    {failedPrecondition : String}
    {allowedFixes : List String} :
    state.decide candidate = .deny failedPrecondition allowedFixes ↔
      ∃ denial,
        state.forbiddenCell candidate.principal candidate.action =
            some denial ∧
          denial (state.context candidate) =
            (failedPrecondition, allowedFixes) := by
  rw [decide]
  cases state.forbiddenCell candidate.principal candidate.action with
  | none => simp
  | some denial => simp [Prod.ext_iff]

/-- A listed action that is granted and leads out of the reported cell. -/
structure Remedy
    (state : ResourceState)
    (candidate : Event)
    (allowedFixes : List String)
    (principal : Principal)
    (action : Action) : Prop where
  listed : Lists allowedFixes principal.value action candidate.resource.display
  granted : state.forbiddenCell principal action = none
  leaves : (state.step principal action).reported candidate.principal
    candidate.action ≠ state.reported candidate.principal candidate.action

/-- The principal that left a resource unstaged may stage it. -/
theorem exists_remedy_of_owner
    {state : ResourceState}
    {candidate : Event}
    {denial : Diagnostic GitContext}
    (found : rowCell candidate.action
      (state.row.view candidate.principal) = some denial)
    (foreign : state.row.view candidate.principal = .unstagedOther) :
    ∃ principal action, Remedy state candidate
      (denial (state.context candidate)).2 principal action := by
  obtain ⟨owner, different, rowEq⟩ := Row.view_eq_unstagedOther_iff.mp foreign
  have own : state.row.view owner = .unstagedSelf :=
    Row.view_eq_unstagedSelf_iff.mpr rowEq
  refine ⟨owner, .stage, ?_, ?_, ?_⟩
  · have ownerEq : (state.context candidate).owner = owner.value := by
      rw [ResourceState.context, rowEq]
    rw [foreign] at found
    have listed := lists_stage_of_owner found (state.context candidate)
    rwa [ownerEq] at listed
  · rw [ResourceState.forbiddenCell, own]
    simp [rowCell, claimCell]
  · refine ResourceState.reported_ne_of_view (by rw [found]; rfl) ?_
    intro same
    rw [foreign] at same
    cases same

/-- The fix of an own row is no forbidden row cell. -/
theorem rowCell_fix
    {view : RowView}
    (own : view ≠ .unstagedOther)
    (action : Action) : rowCell (view.fix action) view = none := by
  cases view with
  | clean => rfl
  | staged => cases action <;> rfl
  | unstagedSelf => cases action <;> rfl
  | unstagedOther => exact absurd rfl own

/-- A claim refuses the fix only of a stuck cell. -/
theorem claimCell_fix
    {claimed : Prop}
    {view : RowView}
    {action : Action}
    {denial : Diagnostic GitContext}
    (found : rowCell action view = some denial)
    (own : view ≠ .unstagedOther)
    (escapes : ¬stuckCell claimed action view)
    (holds : claimed) : claimCell (view.fix action) = none := by
  cases view with
  | clean =>
      cases action
      case stage | stash | commit => exact absurd holds escapes
      case unstage => exact absurd trivial escapes
      all_goals cases found
  | staged => cases action <;> rfl
  | unstagedSelf =>
      cases action
      case delete => exact absurd holds escapes
      all_goals rfl
  | unstagedOther => exact absurd rfl own

/-- The fix of an own row changes it. -/
theorem view_next_fix
    {row : Row}
    {principal : Principal}
    (own : row.view principal ≠ .unstagedOther)
    (action : Action) :
    (row.next principal ((row.view principal).fix action)).view principal ≠
      row.view principal := by
  cases view : row.view principal with
  | clean => simp [RowView.fix, Row.next, Row.view]
  | staged => cases action <;> simp [RowView.fix, Row.next, Row.view]
  | unstagedSelf => cases action <;> simp [RowView.fix, Row.next, Row.view]
  | unstagedOther => exact absurd view own

/-- The acting principal may leave a row of its own, unless another principal's
claim refuses the fix. -/
theorem exists_remedy_of_own
    {state : ResourceState}
    {candidate : Event}
    {denial : Diagnostic GitContext}
    (found : rowCell candidate.action
      (state.row.view candidate.principal) = some denial)
    (own : state.row.view candidate.principal ≠ .unstagedOther)
    (escapes : ¬state.Stuck candidate.principal candidate.action) :
    ∃ principal action, Remedy state candidate
      (denial (state.context candidate)).2 principal action := by
  refine ⟨candidate.principal,
    (state.row.view candidate.principal).fix candidate.action, ?_, ?_, ?_⟩
  · refine lists_fix found own ?_ (state.context candidate)
    rintro ⟨unstages, clean⟩
    rw [ResourceState.Stuck, unstages, clean] at escapes
    exact escapes trivial
  · rw [ResourceState.forbiddenCell, rowCell_fix own, Option.none_or,
      ite_eq_right_iff]
    exact claimCell_fix found own escapes
  · exact ResourceState.reported_ne_of_view (by rw [found]; rfl)
      (view_next_fix own candidate.action)

/-- A principal that reads a resource takes the claim over. -/
theorem exists_remedy_of_claim
    {state : ResourceState}
    {candidate : Event}
    {denial : Diagnostic GitContext}
    (free : rowCell candidate.action
      (state.row.view candidate.principal) = none)
    (claimed : state.ClaimedByOther candidate.principal)
    (found : claimCell candidate.action = some denial) :
    ∃ principal action, Remedy state candidate
      (denial (state.context candidate)).2 principal action := by
  refine ⟨candidate.principal, .read, ?_, ?_, ?_⟩
  · exact lists_read found (state.context candidate)
  · simp [ResourceState.forbiddenCell, rowCell, claimCell]
  · refine ResourceState.reported_ne_of_claim free (by rw [found]; rfl) claimed
      ?_
    rintro ⟨reader, readerEq, different⟩
    exact different (Option.some.inj readerEq).symm

/-- A denial that is not stuck lists a remedy. -/
theorem exists_remedy
    {state : ResourceState}
    {candidate : Event}
    {failedPrecondition : String}
    {allowedFixes : List String}
    (denied : state.decide candidate = .deny failedPrecondition allowedFixes)
    (escapes : ¬state.Stuck candidate.principal candidate.action) :
    ∃ principal action, Remedy state candidate allowedFixes principal action := by
  obtain ⟨denial, forbidden, denialEq⟩ :=
    ResourceState.decide_eq_deny_iff.mp denied
  have fixes : (denial (state.context candidate)).2 = allowedFixes :=
    congrArg Prod.snd denialEq
  rw [← fixes]
  rw [ResourceState.forbiddenCell, Option.or_eq_some_iff] at forbidden
  obtain found | ⟨free, found⟩ := forbidden
  · by_cases foreign :
        state.row.view candidate.principal = .unstagedOther
    · exact exists_remedy_of_owner found foreign
    · exact exists_remedy_of_own found foreign escapes
  · rw [Option.ite_none_right_eq_some] at found
    exact exists_remedy_of_claim free found.1 found.2

/-! ## Denials that cannot -/

/-- Stuck cells are row cells. -/
theorem isSome_rowCell_of_stuckCell
    {claimed : Prop}
    {action : Action}
    {view : RowView}
    (stuck : stuckCell claimed action view) :
    (rowCell action view).isSome = true := by
  cases view <;> cases action <;> first | rfl | exact stuck.elim

/-- Every fix of a stuck cell is refused itself. -/
theorem fixes_refused
    {claimed : Prop}
    {action : Action}
    {view : RowView}
    {denial : Diagnostic GitContext}
    (stuck : stuckCell claimed action view)
    (found : rowCell action view = some denial)
    (context : GitContext)
    (text : String)
    (listed : text ∈ (denial context).2) :
    ∃ refused, Lists [text] context.principal refused context.resource ∧
      ((rowCell refused view).isSome ∨
        claimed ∧ (claimCell refused).isSome) := by
  cases view with
  | staged => cases action <;> exact stuck.elim
  | unstagedOther => cases action <;> exact stuck.elim
  | clean =>
      cases action
      case stage =>
        cases found
        obtain rfl := List.mem_singleton.mp listed
        exact ⟨.edit, ⟨"edit", by simp [verbs], " before staging",
          by simp [purposes], by simp [String.append_assoc]⟩,
          .inr ⟨stuck, rfl⟩⟩
      case stash =>
        cases found
        obtain rfl := List.mem_singleton.mp listed
        exact ⟨.edit, ⟨"edit", by simp [verbs], " before stashing",
          by simp [purposes], by simp [String.append_assoc]⟩,
          .inr ⟨stuck, rfl⟩⟩
      case unstage =>
        cases found
        obtain rfl := List.mem_singleton.mp listed
        exact ⟨.stage, ⟨"stage", by simp [verbs], " before unstaging",
          by simp [purposes], by simp [String.append_assoc]⟩, .inl rfl⟩
      case commit =>
        cases found
        rcases List.mem_pair.mp listed with rfl | rfl
        · exact ⟨.edit, ⟨"edit", by simp [verbs], "",
            by simp [purposes], by simp [String.append_assoc]⟩,
            .inr ⟨stuck, rfl⟩⟩
        · exact ⟨.stage, ⟨"stage", by simp [verbs], " before committing",
            by simp [purposes], by simp [String.append_assoc]⟩, .inl rfl⟩
      all_goals exact stuck.elim
  | unstagedSelf =>
      cases action
      case delete =>
        cases found
        rcases List.mem_pair.mp listed with rfl | rfl
        · exact ⟨.checkout, ⟨"checkout", by simp [verbs], " before deleting",
            by simp [purposes], by simp [String.append_assoc]⟩,
            .inr ⟨stuck, rfl⟩⟩
        · exact ⟨.stash, ⟨"stash", by simp [verbs], " before deleting",
            by simp [purposes], by simp [String.append_assoc]⟩,
            .inr ⟨stuck, rfl⟩⟩
      all_goals exact stuck.elim

/-- What a listed fix reads as. -/
theorem Lists.spells
    {allowedFixes : List String}
    {principal : Principal}
    {action : Action}
    {resource : Resource}
    (lists : Lists allowedFixes principal.value action resource.display) :
    ∃ text ∈ allowedFixes, Spells text ⟨principal, action, resource⟩ := by
  obtain ⟨verb, verbMember, purpose, purposeMember, listed⟩ := lists
  exact ⟨_, listed, verb, verbMember, purpose, purposeMember, rfl⟩

/-- A stuck denial refuses whatever its fixes read as. -/
theorem forbiddenCell_of_stuck
    {state : ResourceState}
    {candidate event : Event}
    {failedPrecondition text : String}
    {allowedFixes : List String}
    (denied : state.decide candidate = .deny failedPrecondition allowedFixes)
    (stuck : state.Stuck candidate.principal candidate.action)
    (listed : text ∈ allowedFixes)
    (spells : Spells text event)
    (same : event.resource = candidate.resource) :
    state.forbiddenCell event.principal event.action ≠ none := by
  obtain ⟨denial, forbidden, denialEq⟩ :=
    ResourceState.decide_eq_deny_iff.mp denied
  have fixes : (denial (state.context candidate)).2 = allowedFixes :=
    congrArg Prod.snd denialEq
  have found : rowCell candidate.action
      (state.row.view candidate.principal) = some denial := by
    rw [ResourceState.forbiddenCell, Option.or_eq_some_iff] at forbidden
    obtain found | ⟨free, -⟩ := forbidden
    · exact found
    · have row := isSome_rowCell_of_stuckCell stuck
      rw [free] at row
      cases row
  rw [← fixes] at listed
  obtain ⟨refused, lists, refusal⟩ :=
    fixes_refused stuck found (state.context candidate) text listed
  have reading : ∃ listed ∈ [text],
      Spells listed ⟨candidate.principal, refused, candidate.resource⟩ :=
    Lists.spells lists
  obtain ⟨_, member, refusedSpells⟩ := reading
  obtain rfl := List.mem_singleton.mp member
  obtain rfl := refusedSpells.unique spells same.symm
  rw [ResourceState.forbiddenCell, Ne, Option.or_eq_none_iff,
    ite_eq_right_iff]
  rintro ⟨rowFree, claimFree⟩
  rcases refusal with row | ⟨claimed, claim⟩
  · rw [rowFree] at row
    cases row
  · rw [claimFree claimed] at claim
    cases claim

section Order

variable [LinearOrder TestNode] [LinearOrder Regex] [LinearOrder TransitionNode]

/-- Granted events leave a resource alone where it refuses those about it. -/
theorem stateOf_of_refused
    {resource : Resource}
    {history events : List Event}
    (granted : GrantedInOrder history events)
    (refused : ∀ event ∈ events, event.resource = resource ->
      (stateOf resource history).forbiddenCell event.principal event.action ≠
        none) :
    stateOf resource (history ++ events) = stateOf resource history := by
  induction events generalizing history with
  | nil => rw [List.append_nil]
  | cons event events hypothesis =>
      obtain ⟨grant, granted⟩ := granted
      have elsewhere : event.resource ≠ resource := by
        intro same
        rw [gitDecision_eq, Option.some_inj,
          ResourceState.decide_eq_grant_iff, same] at grant
        exact refused event List.mem_cons_self same grant
      have kept : stateOf resource (history ++ [event]) =
          stateOf resource history := by
        rw [stateOf_append_singleton, advance, if_neg elsewhere]
      rw [List.append_cons, hypothesis granted ?_, kept]
      intro other member same
      rw [kept]
      exact refused other (List.mem_cons_of_mem _ member) same

/-- The fixes of a stuck denial cannot be acted on. -/
theorem not_actionable_of_stuck
    {history : List Event}
    {candidate : Event}
    {failedPrecondition : String}
    {allowedFixes : List String}
    (denied : (stateOf candidate.resource history).decide candidate =
      .deny failedPrecondition allowedFixes)
    (stuck : (stateOf candidate.resource history).Stuck candidate.principal
      candidate.action) :
    ¬Actionable history candidate allowedFixes := by
  rintro ⟨texts, events, listed, spells, granted, leaves⟩
  have reported := (List.forall₂_and_left texts events).mpr
    ⟨fun text member => listed.subset member, spells⟩
  have refused := forall_mem_of_forall₂ reported fun text event read =>
    forbiddenCell_of_stuck denied stuck read.1 read.2
  rw [reportedCell, reportedCell, stateOf_of_refused granted refused] at leaves
  exact leaves rfl

/-- The fixes of a denial can be acted on exactly where the denial is not
stuck. -/
theorem actionable_iff_not_stuck
    {history : List Event}
    {candidate : Event}
    {failedPrecondition : String}
    {allowedFixes : List String}
    (denied : gitDecision history candidate =
      some (.deny failedPrecondition allowedFixes)) :
    Actionable history candidate allowedFixes ↔
      ¬(stateOf candidate.resource history).Stuck candidate.principal
        candidate.action := by
  rw [gitDecision_eq, Option.some_inj] at denied
  constructor
  · intro actionable stuck
    exact not_actionable_of_stuck denied stuck actionable
  · intro escapes
    obtain ⟨principal, action, remedy⟩ := exists_remedy denied escapes
    obtain ⟨text, textMember, reading⟩ := remedy.listed.spells
    refine ⟨[text], [⟨principal, action, candidate.resource⟩],
      List.singleton_sublist.mpr textMember, .cons reading .nil, ?_, ?_⟩
    · refine ⟨?_, trivial⟩
      rw [gitDecision_eq, Option.some_inj, ResourceState.decide_eq_grant_iff]
      exact remedy.granted
    · rw [reportedCell, stateOf_append_singleton, advance, if_pos rfl]
      exact remedy.leaves

end Order

/-- A file of the runs below. -/
def sourceFile : Resource := ⟨["src", "x"]⟩

/-- The only fix for the unstaging of a file nobody touched is refused. -/
theorem not_actionable_unstage :
    letI := someOrder TestNode
    letI := someOrder Regex
    letI := someOrder TransitionNode
    gitDecision [] ⟨⟨"alice"⟩, .unstage, sourceFile⟩ =
        some (.deny "unstage requires a staged resource"
          ["alice stage src/x before unstaging"]) ∧
      ¬Actionable [] ⟨⟨"alice"⟩, .unstage, sourceFile⟩
        ["alice stage src/x before unstaging"] := by
  let _ := someOrder TestNode
  let _ := someOrder Regex
  let _ := someOrder TransitionNode
  have denied : (stateOf sourceFile []).decide
      ⟨⟨"alice"⟩, .unstage, sourceFile⟩ =
        .deny "unstage requires a staged resource"
          ["alice stage src/x before unstaging"] := by
    decide +kernel
  exact ⟨by rw [gitDecision_eq, denied],
    not_actionable_of_stuck denied trivial⟩

/-- A foreign edit is refused with fixes that can be acted on. -/
theorem actionable_foreign_edit :
    letI := someOrder TestNode
    letI := someOrder Regex
    letI := someOrder TransitionNode
    Actionable [⟨⟨"alice"⟩, .edit, sourceFile⟩] ⟨⟨"bob"⟩, .edit, sourceFile⟩
      (opf "bob" "src/x" "alice") := by
  let _ := someOrder TestNode
  let _ := someOrder Regex
  let _ := someOrder TransitionNode
  have denied : gitDecision [⟨⟨"alice"⟩, .edit, sourceFile⟩]
      ⟨⟨"bob"⟩, .edit, sourceFile⟩ =
        some (.deny ("src/x is unstaged by alice; bob may read, diff, or " ++
          "history it but may not edit it") (opf "bob" "src/x" "alice")) := by
    rw [gitDecision_eq]
    decide +kernel
  exact (actionable_iff_not_stuck denied).mpr id

end Git
end Policy
end Marsh
