import Marsh.Validator.Constructors

/-!
# The interned constructors

The constructors as the normalizer runs them: the complement recursion with a
bound on its depth, and a table of interned regexes with the nullability each
was interned with.  Interning a regex again with another nullability is the
failed assertion.  Both always return, and what they return is what the
constructors of tests and regexes denote.
-/

namespace Marsh
namespace Validator

open Library

section Order

variable [LinearOrder TestNode]

/-! ## The complement recursion -/

/-- Whether siblings make their connective constant by complementation, asking
for complements only as long as the answer is open. -/
def testsHaveComplementsWithin
    (testNot : TestNode -> Option TestNode)
    (tests : List TestNode)
    (connective : TestConnective) : Option Bool :=
  if pairSatisfies complementaryTest tests then some true
  else
    tests.anyM fun candidate =>
      match connective.dual.children candidate with
      | none => some false
      | some dualChildren =>
          dualChildren.allM fun child =>
            (testNot child).map fun complement => decide (complement ∈ tests)

/-- Normalizes one connective, given a complement that may not return. -/
def testConnectiveWithin
    (testNot : TestNode -> Option TestNode)
    (children : List TestNode)
    (connective : TestConnective) : Option TestNode :=
  match flattenTests connective children with
  | none => some connective.absorber
  | some collected => do
      let flat := sortDedup collected
      let complements ← testsHaveComplementsWithin testNot flat connective
      if complements ||
          pairSatisfies
            (distinctConstantAtoms connective.contradictoryComparison) flat then
        pure connective.absorber
      else pure (closeTests connective (retainTests connective flat))

/-- The complement, within a depth of calls: `none` is a recursion that goes
deeper. -/
def testNotWithin : Nat -> TestNode -> Option TestNode
  | _, .tt => some .ff
  | _, .ff => some .tt
  | _, .atom atom => some (.atom { atom with comparison := atom.comparison.not })
  | 0, _ => none
  | fuel + 1, .and children => do
      let complements ← children.mapM (testNotWithin fuel)
      testConnectiveWithin (testNotWithin fuel) complements .or
  | fuel + 1, .or children => do
      let complements ← children.mapM (testNotWithin fuel)
      testConnectiveWithin (testNotWithin fuel) complements .and

/-- The connective constructor returns when the complement does on canonical
tests shallower than its operands. -/
theorem testConnectiveWithin_eq
    {first : TestNode -> Option TestNode}
    {second : TestNode -> TestNode}
    (bound : Nat)
    {children : List TestNode}
    (connective : TestConnective)
    (canonical : ∀ child ∈ children, CanonicalTest child)
    (bounded : ∀ child ∈ children, child.depth ≤ bound)
    (agree : ∀ test, CanonicalTest test -> test.depth < bound ->
      first test = some (second test)) :
    testConnectiveWithin first children connective =
      some (testConnectiveWith second children connective) := by
  unfold testConnectiveWithin testConnectiveWith
  cases flattened : flattenTests connective children with
  | none => rfl
  | some collected =>
      have shape := shape_of_flattenTests canonical bounded flattened
      have complements :
          testsHaveComplementsWithin first (sortDedup collected) connective =
            some (testsHaveComplements second (sortDedup collected)
              connective) := by
        unfold testsHaveComplementsWithin testsHaveComplements
        cases pairSatisfies complementaryTest (sortDedup collected) with
        | true => rfl
        | false =>
            rw [if_neg (by simp), Bool.false_or]
            apply anyM_eq_some
            intro candidate member
            cases found : connective.dual.children candidate with
            | none => rfl
            | some nested =>
                apply allM_eq_some
                intro child childMem
                obtain ⟨candidateCanonical, _, candidateBounded⟩ :=
                  shape candidate (mem_sortDedup.mp member)
                rw [TestConnective.eq_node_of_children found]
                  at candidateCanonical candidateBounded
                have shallower := connective.dual.depth_child_lt childMem
                rw [agree child
                  (candidateCanonical.of_node.2.2 child childMem) (by omega)]
                rfl
      simp only [complements]
      split_ifs with constant
      · exact if_pos constant
      · exact if_neg constant

/-- Within its own depth, the complement of a canonical test returns. -/
theorem testNotWithin_eq
    {fuel : Nat}
    {test : TestNode}
    (canonical : CanonicalTest test)
    (bounded : test.depth ≤ fuel) :
    testNotWithin fuel test = some (testNot test) := by
  induction fuel generalizing test with
  | zero =>
      cases canonical with
      | tt => rfl
      | ff => rfl
      | atom value => rfl
      | and => simp [BooleanTest.depth] at bounded
      | or => simp [BooleanTest.depth] at bounded
  | succ fuel hypothesis =>
      have nodeEq : ∀ (connective : TestConnective)
          (children : List TestNode),
          CanonicalTest (connective.node children) ->
          (connective.node children).depth ≤ fuel + 1 ->
          (do
            let complements ← children.mapM (testNotWithin fuel)
            testConnectiveWithin (testNotWithin fuel) complements
              connective.dual) =
            some (testNot (connective.node children)) := by
        intro connective children nodeCanonical nodeBounded
        obtain ⟨_, _, childrenCanonical⟩ := nodeCanonical.of_node
        obtain ⟨bound, depthEq⟩ := connective.exists_depth_node children
        have childBounded := TestConnective.depth_node_le_iff.mp depthEq.le
        have complements : children.mapM (testNotWithin fuel) =
            some (children.map testNot) :=
          mapM_eq_some_map fun child member =>
            hypothesis (childrenCanonical child member)
              ((childBounded child member).trans (by omega))
        rw [complements, testNot_node nodeCanonical]
        refine testConnectiveWithin_eq bound connective.dual ?_ ?_
          fun test testCanonical shallower =>
            hypothesis testCanonical (by omega)
        · exact List.forall_mem_map.mpr fun child member =>
            (childrenCanonical child member).testNot
        · exact List.forall_mem_map.mpr fun child member =>
            (depth_testNot_le (childrenCanonical child member)).trans
              (childBounded child member)
      cases canonical with
      | tt => rfl
      | ff => rfl
      | atom value => rfl
      | and sorted flat childrenCanonical =>
          exact nodeEq .and _ (.and sorted flat childrenCanonical) bounded
      | or sorted flat childrenCanonical =>
          exact nodeEq .or _ (.or sorted flat childrenCanonical) bounded

/-- Within the depth of its operands, a connective of canonical tests returns. -/
theorem testConnectiveWithin_testNotWithin
    {fuel : Nat}
    (connective : TestConnective)
    {children : List TestNode}
    (canonical : ∀ child ∈ children, CanonicalTest child)
    (bounded : BooleanTest.depthAll children ≤ fuel) :
    testConnectiveWithin (testNotWithin fuel) children connective =
      some (testConnective children connective) :=
  testConnectiveWithin_eq fuel connective canonical
    (BooleanTest.depthAll_le_iff.mp bounded) fun _ testCanonical shallower =>
      testNotWithin_eq testCanonical shallower.le

/-! ## The table of regexes -/

variable [LinearOrder Regex]

/-- The interned regexes, each with the nullability it was interned with. -/
abbrev RegexStore := Regex -> Option Bool

/-- A program on the table: `none` is a failed assertion, a handle of another
table, or a call that does not return. -/
abbrev StoreProgram (Value : Type) := StateT RegexStore Option Value

/-- The table of a new normalizer: the three constants. -/
def RegexStore.new : RegexStore
  | .empty => some false
  | .all => some true
  | .epsilon => some true
  | _ => none

/-- Interns one regex.  A regex that is there already has to carry the same
nullability. -/
def internRegex (kind : Regex) (nullable : Bool) : StoreProgram Regex :=
  fun store =>
    match store kind with
    | none => some (kind, Function.update store kind (some nullable))
    | some stored => if stored = nullable then some (kind, store) else none

/-- Some listed regex carries nullability. -/
def anyStored (regexes : List Regex) : StoreProgram Bool := do
  let store ← get
  StateT.lift (regexes.anyM store)

/-- Every listed regex carries nullability. -/
def allStored (regexes : List Regex) : StoreProgram Bool := do
  let store ← get
  StateT.lift (regexes.allM store)

/-- Lifts a one-event test into the regex language. -/
def regexTestInterned (test : TestNode) : StoreProgram Regex :=
  if test = .ff then pure .empty else internRegex (.test test) false

/-- Combines all one-event operands of a union. -/
def groupUnionTestsInterned
    (fuel : Nat)
    (flat : List Regex) : StoreProgram (List Regex) :=
  let tests := flat.filterMap testOperand
  let others := flat.filter fun child => (testOperand child).isNone
  if tests.isEmpty then pure others
  else do
    let test ← StateT.lift
      (testConnectiveWithin (testNotWithin fuel) tests .or)
    let regex ← regexTestInterned test
    pure (if regex ≠ .empty then others ++ [regex] else others)

/-- Combines all one-event operands of an intersection. -/
def groupIntersectTestsInterned
    (fuel : Nat)
    (flat : List Regex) : StoreProgram (Option (List Regex)) :=
  let tests := flat.filterMap testOperand
  let others := flat.filter fun child => (testOperand child).isNone
  if tests.isEmpty then pure (some others)
  else do
    let test ← StateT.lift
      (testConnectiveWithin (testNotWithin fuel) tests .and)
    let regex ← regexTestInterned test
    pure (if regex = .empty then none else some (others ++ [regex]))

/-- Drops epsilon from a union beside another operand that carries nullability.
-/
def dropSubsumedEpsilonInterned (flat : List Regex) :
    StoreProgram (List Regex) :=
  if .epsilon ∈ flat then do
    let others := flat.filter fun child => decide (child ≠ .epsilon)
    if ← anyStored others then pure others else pure flat
  else pure flat

/-- Drops `Not(Epsilon)` from an intersection beside a proper operand. -/
def dropImpliedPropernessInterned (flat : List Regex) :
    StoreProgram (List Regex) := do
  let others := flat.filter fun child => !isEpsilonComplement child
  if ← allStored others then pure flat else pure others

/-- Closes a union over its final operands. -/
def closeUnionInterned : List Regex -> StoreProgram Regex
  | [] => pure .empty
  | [only] => pure only
  | flat => do internRegex (.union flat) (← anyStored flat)

/-- Closes an intersection over its final operands. -/
def closeIntersectInterned : List Regex -> StoreProgram Regex
  | [] => pure .all
  | [only] => pure only
  | flat => do internRegex (.intersect flat) (← allStored flat)

/-- Closes a concatenation over its final factors. -/
def closeConcatInterned : List Regex -> StoreProgram Regex
  | [] => pure .epsilon
  | [only] => pure only
  | flat => do internRegex (.concat flat) (← allStored flat)

/-- Constructs canonical language union. -/
def regexUnionInterned
    (fuel : Nat)
    (children : List Regex) : StoreProgram Regex :=
  match flattenUnion children with
  | none => pure .all
  | some collected => do
      let grouped ← groupUnionTestsInterned fuel collected
      let flat := sortDedup grouped
      if pairSatisfies complementaryRegex flat then pure .all
      else do
        let kept ← dropSubsumedEpsilonInterned flat
        closeUnionInterned (retainRegexes isIntersect kept)

/-- Constructs canonical language intersection. -/
def regexIntersectInterned
    (fuel : Nat)
    (children : List Regex) : StoreProgram Regex :=
  match flattenIntersect children with
  | none => pure .empty
  | some collected => do
      match ← groupIntersectTestsInterned fuel collected with
      | none => pure .empty
      | some grouped => do
          let flat := sortDedup grouped
          if pairSatisfies complementaryRegex flat then pure .empty
          else if .epsilon ∈ flat then do
            if ← allStored flat then pure .epsilon else pure .empty
          else do
            let kept ← dropImpliedPropernessInterned flat
            closeIntersectInterned (retainRegexes isUnion kept)

/-- Constructs canonical ordered concatenation. -/
def regexConcatInterned (children : List Regex) : StoreProgram Regex :=
  match flattenConcat children with
  | none => pure .empty
  | some flat => closeConcatInterned flat

/-- Constructs canonical Kleene star. -/
def regexStarInterned (inner : Regex) : StoreProgram Regex :=
  match inner with
  | .empty => pure .epsilon
  | .epsilon => pure .epsilon
  | .all => pure .all
  | .test .tt => pure .all
  | .star _ => pure inner
  | _ => internRegex (.star inner) true

/-- Constructs canonical whole-language complement. -/
def regexNotInterned (inner : Regex) : StoreProgram Regex :=
  match inner with
  | .empty => pure .all
  | .all => pure .empty
  | .not value => pure value
  | _ => do
      let store ← get
      let nullable ← StateT.lift (store inner)
      internRegex (.not inner) (!nullable)

/-! ## What the table holds -/

/-- The regexes a regex is made of directly. -/
def Regex.operands : Regex -> List Regex
  | .union children => children
  | .intersect children => children
  | .concat factors => factors
  | .star inner => [inner]
  | .not inner => [inner]
  | _ => []

/-- Every entry is a canonical regex with its own nullability, made of entries;
the constants are entries. -/
structure StoreSound (store : RegexStore) : Prop where
  empty : (store .empty).isSome
  all : (store .all).isSome
  epsilon : (store .epsilon).isSome
  nullable : ∀ regex stored, store regex = some stored ->
    stored = regex.nullable
  canonical : ∀ regex, (store regex).isSome -> CanonicalRegex regex
  operands : ∀ regex, (store regex).isSome ->
    ∀ operand ∈ Regex.operands regex, (store operand).isSome

theorem StoreSound.new : StoreSound .new where
  empty := rfl
  all := rfl
  epsilon := rfl
  nullable regex stored entry := by
    cases regex <;> cases entry <;> rfl
  canonical regex entry := by
    cases regex with
    | empty => exact .empty
    | all => exact .all
    | epsilon => exact .epsilon
    | _ => cases entry
  operands regex entry operand member := by
    cases regex with
    | empty => cases member
    | all => cases member
    | epsilon => cases member
    | _ => cases entry

/-- A sound table with at least the entries of another one. -/
structure Grows (store next : RegexStore) : Prop where
  sound : StoreSound next
  kept : ∀ regex, (store regex).isSome -> (next regex).isSome

theorem StoreSound.grows
    {store : RegexStore}
    (sound : StoreSound store) : Grows store store :=
  ⟨sound, fun _ entry => entry⟩

theorem Grows.trans
    {first second third : RegexStore}
    (one : Grows first second)
    (two : Grows second third) : Grows first third :=
  ⟨two.sound, fun regex entry => two.kept regex (one.kept regex entry)⟩

/-- The program returns an entry of a grown table: the given regex. -/
def Interns
    (store : RegexStore)
    (program : StoreProgram Regex)
    (result : Regex) : Prop :=
  Returns (program store) fun outcome =>
    outcome.1 = result ∧ Grows store outcome.2 ∧ (outcome.2 result).isSome

theorem StoreSound.interns_pure
    {store : RegexStore}
    (sound : StoreSound store)
    {regex : Regex}
    (entry : (store regex).isSome) : Interns store (pure regex) regex :=
  Returns.some_iff.mpr ⟨rfl, sound.grows, entry⟩

theorem StoreSound.stored_eq
    {store : RegexStore}
    (sound : StoreSound store)
    {regex : Regex}
    (entry : (store regex).isSome) : store regex = some regex.nullable := by
  obtain ⟨stored, found⟩ := Option.isSome_iff_exists.mp entry
  rw [found, sound.nullable regex stored found]

/-- Interning a canonical regex made of entries, with its own nullability. -/
theorem StoreSound.interns_internRegex
    {store : RegexStore}
    (sound : StoreSound store)
    {kind : Regex}
    (canonical : CanonicalRegex kind)
    (operands : ∀ operand ∈ Regex.operands kind, (store operand).isSome) :
    Interns store (internRegex kind kind.nullable) kind := by
  unfold Interns internRegex
  cases found : store kind with
  | some stored =>
      have same := sound.nullable kind stored found
      simp only [if_pos same]
      exact Returns.some_iff.mpr ⟨rfl, sound.grows, by simp [found]⟩
  | none =>
      have kept : ∀ regex, (store regex).isSome ->
          (Function.update store kind (some kind.nullable) regex).isSome := by
        intro regex entry
        by_cases same : regex = kind
        · simp [same]
        · rwa [Function.update_of_ne same]
      refine Returns.some_iff.mpr ⟨rfl, ⟨?_, kept⟩, by simp⟩
      constructor
      · exact kept _ sound.empty
      · exact kept _ sound.all
      · exact kept _ sound.epsilon
      · intro regex stored entry
        dsimp only at entry
        by_cases same : regex = kind
        · rw [same, Function.update_self] at entry
          rw [same, ← Option.some.inj entry]
        · rw [Function.update_of_ne same] at entry
          exact sound.nullable regex stored entry
      · intro regex entry
        dsimp only at entry
        by_cases same : regex = kind
        · rw [same]
          exact canonical
        · rw [Function.update_of_ne same] at entry
          exact sound.canonical regex entry
      · intro regex entry operand member
        dsimp only at entry
        by_cases same : regex = kind
        · rw [same] at member
          exact kept operand (operands operand member)
        · rw [Function.update_of_ne same] at entry
          exact kept operand (sound.operands regex entry operand member)

theorem StoreSound.anyStored_eq
    {store : RegexStore}
    (sound : StoreSound store)
    {regexes : List Regex}
    (entries : ∀ regex ∈ regexes, (store regex).isSome) :
    anyStored regexes store =
      some (regexes.any ExtendedRegex.nullable, store) := by
  rw [anyStored, get_bind_apply, StateT.lift, anyM_eq_some fun regex member =>
    sound.stored_eq (entries regex member)]
  rfl

theorem StoreSound.allStored_eq
    {store : RegexStore}
    (sound : StoreSound store)
    {regexes : List Regex}
    (entries : ∀ regex ∈ regexes, (store regex).isSome) :
    allStored regexes store =
      some (regexes.all ExtendedRegex.nullable, store) := by
  rw [allStored, get_bind_apply, StateT.lift, allM_eq_some fun regex member =>
    sound.stored_eq (entries regex member)]
  rfl

/-- A step that returns without changing the table. -/
theorem Interns.of_step
    {Value : Type}
    {store : RegexStore}
    {program : StoreProgram Value}
    {next : Value -> StoreProgram Regex}
    {value : Value}
    {result : Regex}
    (runs : program store = some (value, store))
    (rest : Interns store (next value) result) :
    Interns store (program >>= next) result := by
  rw [Interns, bind_apply_of_eq runs]
  exact rest

/-- A step that returns and may grow the table. -/
theorem Interns.of_grown
    {Value : Type}
    {store : RegexStore}
    {program : StoreProgram Value}
    {next : Value -> StoreProgram Regex}
    {holds : Value × RegexStore -> Prop}
    {result : Regex}
    (runs : Returns (program store) fun outcome =>
      holds outcome ∧ Grows store outcome.2)
    (rest : ∀ value middle, holds (value, middle) -> Grows store middle ->
      Interns middle (next value) result) :
    Interns store (program >>= next) result := by
  refine runs.bind fun outcome both => ?_
  refine (rest outcome.1 outcome.2 both.1 both.2).imp fun last returned => ?_
  exact ⟨returned.1, both.2.trans returned.2.1, returned.2.2⟩

section Constructors

variable {store : RegexStore} (sound : StoreSound store)

include sound

theorem interns_regexTestInterned
    {test : TestNode}
    (canonical : CanonicalTest test) :
    Interns store (regexTestInterned test) (regexTest test) := by
  unfold regexTestInterned regexTest
  split_ifs with isFalse
  · exact sound.interns_pure sound.empty
  · exact sound.interns_internRegex (.test canonical) fun operand member => by
      cases member

theorem interns_closeUnionInterned
    {flat : List Regex}
    (entries : ∀ child ∈ flat, (store child).isSome)
    (canonical : CanonicalRegex (closeUnion flat)) :
    Interns store (closeUnionInterned flat) (closeUnion flat) := by
  rcases flat with _ | ⟨first, _ | ⟨second, rest⟩⟩
  · exact sound.interns_pure sound.empty
  · exact sound.interns_pure (entries _ List.mem_cons_self)
  · have bit : (ExtendedRegex.union (first :: second :: rest)).nullable =
        (first :: second :: rest).any ExtendedRegex.nullable := by
      rw [ExtendedRegex.nullable, ExtendedRegex.anyNullable_eq_any]
    refine .of_step (sound.anyStored_eq entries) ?_
    rw [← bit]
    exact sound.interns_internRegex canonical entries

theorem interns_closeIntersectInterned
    {flat : List Regex}
    (entries : ∀ child ∈ flat, (store child).isSome)
    (canonical : CanonicalRegex (closeIntersect flat)) :
    Interns store (closeIntersectInterned flat) (closeIntersect flat) := by
  rcases flat with _ | ⟨first, _ | ⟨second, rest⟩⟩
  · exact sound.interns_pure sound.all
  · exact sound.interns_pure (entries _ List.mem_cons_self)
  · have bit : (ExtendedRegex.intersect (first :: second :: rest)).nullable =
        (first :: second :: rest).all ExtendedRegex.nullable := by
      rw [ExtendedRegex.nullable, ExtendedRegex.allNullable_eq_all]
    refine .of_step (sound.allStored_eq entries) ?_
    rw [← bit]
    exact sound.interns_internRegex canonical entries

theorem interns_closeConcatInterned
    {flat : List Regex}
    (entries : ∀ child ∈ flat, (store child).isSome)
    (canonical : CanonicalRegex (closeConcat flat)) :
    Interns store (closeConcatInterned flat) (closeConcat flat) := by
  rcases flat with _ | ⟨first, _ | ⟨second, rest⟩⟩
  · exact sound.interns_pure sound.epsilon
  · exact sound.interns_pure (entries _ List.mem_cons_self)
  · have bit : (ExtendedRegex.concat (first :: second :: rest)).nullable =
        (first :: second :: rest).all ExtendedRegex.nullable := by
      rw [ExtendedRegex.nullable, ExtendedRegex.allNullable_eq_all]
    refine .of_step (sound.allStored_eq entries) ?_
    rw [← bit]
    exact sound.interns_internRegex canonical entries

/-- The operands flattening leaves are entries. -/
theorem entries_of_flattenUnion
    {children flat : List Regex}
    (entries : ∀ child ∈ children, (store child).isSome)
    (flattened : flattenUnion children = some flat) :
    ∀ child ∈ flat, (store child).isSome := by
  induction children generalizing flat with
  | nil => simp_all [flattenUnion]
  | cons child rest hypothesis =>
      obtain ⟨childEntry, restEntries⟩ := List.forall_mem_cons.mp entries
      cases child with
      | all => simp [flattenUnion] at flattened
      | empty =>
          rw [flattenUnion] at flattened
          exact hypothesis restEntries flattened
      | union nested =>
          rw [flattenUnion, Option.map_eq_some_iff] at flattened
          obtain ⟨tail, tailEq, rfl⟩ := flattened
          exact List.forall_mem_append.mpr
            ⟨sound.operands _ childEntry, hypothesis restEntries tailEq⟩
      | _ =>
          simp only [flattenUnion, Option.map_eq_some_iff] at flattened
          obtain ⟨tail, tailEq, rfl⟩ := flattened
          exact List.forall_mem_cons.mpr
            ⟨childEntry, hypothesis restEntries tailEq⟩

theorem entries_of_flattenIntersect
    {children flat : List Regex}
    (entries : ∀ child ∈ children, (store child).isSome)
    (flattened : flattenIntersect children = some flat) :
    ∀ child ∈ flat, (store child).isSome := by
  induction children generalizing flat with
  | nil => simp_all [flattenIntersect]
  | cons child rest hypothesis =>
      obtain ⟨childEntry, restEntries⟩ := List.forall_mem_cons.mp entries
      cases child with
      | empty => simp [flattenIntersect] at flattened
      | all =>
          rw [flattenIntersect] at flattened
          exact hypothesis restEntries flattened
      | intersect nested =>
          rw [flattenIntersect, Option.map_eq_some_iff] at flattened
          obtain ⟨tail, tailEq, rfl⟩ := flattened
          exact List.forall_mem_append.mpr
            ⟨sound.operands _ childEntry, hypothesis restEntries tailEq⟩
      | _ =>
          simp only [flattenIntersect, Option.map_eq_some_iff] at flattened
          obtain ⟨tail, tailEq, rfl⟩ := flattened
          exact List.forall_mem_cons.mpr
            ⟨childEntry, hypothesis restEntries tailEq⟩

theorem entries_of_flattenConcat
    {children flat : List Regex}
    (entries : ∀ child ∈ children, (store child).isSome)
    (flattened : flattenConcat children = some flat) :
    ∀ child ∈ flat, (store child).isSome := by
  induction children generalizing flat with
  | nil => simp_all [flattenConcat]
  | cons child rest hypothesis =>
      obtain ⟨childEntry, restEntries⟩ := List.forall_mem_cons.mp entries
      cases child with
      | empty => simp [flattenConcat] at flattened
      | epsilon =>
          rw [flattenConcat] at flattened
          exact hypothesis restEntries flattened
      | concat nested =>
          rw [flattenConcat, Option.map_eq_some_iff] at flattened
          obtain ⟨tail, tailEq, rfl⟩ := flattened
          exact List.forall_mem_append.mpr
            ⟨sound.operands _ childEntry, hypothesis restEntries tailEq⟩
      | _ =>
          simp only [flattenConcat, Option.map_eq_some_iff] at flattened
          obtain ⟨tail, tailEq, rfl⟩ := flattened
          exact List.forall_mem_cons.mpr
            ⟨childEntry, hypothesis restEntries tailEq⟩

/-- The tests of some entries are canonical. -/
theorem canonical_of_entries
    {flat : List Regex}
    (entries : ∀ child ∈ flat, (store child).isSome) :
    ∀ test ∈ flat.filterMap testOperand, CanonicalTest test :=
  canonical_filterMap_testOperand fun child member =>
    sound.canonical child (entries child member)

/-- Grouping the tests of a union gives entries of a grown table. -/
theorem returns_groupUnionTestsInterned
    {fuel : Nat}
    {flat : List Regex}
    (entries : ∀ child ∈ flat, (store child).isSome)
    (deep : BooleanTest.depthAll (flat.filterMap testOperand) ≤ fuel) :
    Returns (groupUnionTestsInterned fuel flat store) fun outcome =>
      (outcome.1 = groupUnionTests flat ∧
        ∀ child ∈ outcome.1, (outcome.2 child).isSome) ∧
          Grows store outcome.2 := by
  have others : ∀ child ∈
      flat.filter (fun child => (testOperand child).isNone),
        (store child).isSome :=
    fun child member => entries child (List.mem_filter.mp member).1
  have testsCanonical := canonical_of_entries sound entries
  unfold groupUnionTestsInterned groupUnionTests
  dsimp only
  split_ifs with noTests
  · exact Returns.some_iff.mpr ⟨⟨rfl, others⟩, sound.grows⟩
  all_goals
    have lifted : (StateT.lift (testConnectiveWithin
        (testNotWithin fuel) (flat.filterMap testOperand) .or) :
          StoreProgram TestNode) store =
            some (testOr (flat.filterMap testOperand), store) := by
      rw [testConnectiveWithin_testNotWithin .or testsCanonical deep]
      rfl
    rw [bind_apply_of_eq lifted]
    refine (interns_regexTestInterned sound
      (.testOr testsCanonical)).bindState fun regex next interned => ?_
    obtain ⟨regexEq, grows, entry⟩ := interned
    dsimp only at regexEq grows entry
    rw [pure_apply, regexEq]
    refine Returns.some_iff.mpr ⟨⟨?_, ?_⟩, grows⟩
  · rename_i proper
    exact if_pos proper
  · rename_i proper
    rw [if_pos proper, List.forall_mem_append]
    refine ⟨fun child member => grows.kept child (others child member), ?_⟩
    intro child member
    rw [List.mem_singleton.mp member]
    exact entry
  · rename_i vanished
    exact if_neg vanished
  · rename_i vanished
    rw [if_neg vanished]
    exact fun child member => grows.kept child (others child member)

/-- Grouping the tests of an intersection gives entries of a grown table. -/
theorem returns_groupIntersectTestsInterned
    {fuel : Nat}
    {flat : List Regex}
    (entries : ∀ child ∈ flat, (store child).isSome)
    (deep : BooleanTest.depthAll (flat.filterMap testOperand) ≤ fuel) :
    Returns (groupIntersectTestsInterned fuel flat store) fun outcome =>
      (outcome.1 = groupIntersectTests flat ∧
        ∀ grouped ∈ outcome.1, ∀ child ∈ grouped,
          (outcome.2 child).isSome) ∧
            Grows store outcome.2 := by
  have others : ∀ child ∈
      flat.filter (fun child => (testOperand child).isNone),
        (store child).isSome :=
    fun child member => entries child (List.mem_filter.mp member).1
  have testsCanonical := canonical_of_entries sound entries
  unfold groupIntersectTestsInterned groupIntersectTests
  dsimp only
  split_ifs with noTests
  · refine Returns.some_iff.mpr ⟨⟨rfl, ?_⟩, sound.grows⟩
    intro grouped same child member
    rw [← Option.mem_some_iff.mp same] at member
    exact others child member
  all_goals
    have lifted : (StateT.lift (testConnectiveWithin
        (testNotWithin fuel) (flat.filterMap testOperand) .and) :
          StoreProgram TestNode) store =
            some (testAnd (flat.filterMap testOperand), store) := by
      rw [testConnectiveWithin_testNotWithin .and testsCanonical deep]
      rfl
    rw [bind_apply_of_eq lifted]
    refine (interns_regexTestInterned sound
      (.testAnd testsCanonical)).bindState fun regex next interned => ?_
    obtain ⟨regexEq, grows, entry⟩ := interned
    dsimp only at regexEq grows entry
    rw [pure_apply, regexEq]
    refine Returns.some_iff.mpr ⟨⟨?_, ?_⟩, grows⟩
  · rename_i vanished
    exact if_pos vanished
  · rename_i vanished
    rw [if_pos vanished]
    intro grouped impossible
    cases impossible
  · rename_i proper
    exact if_neg proper
  · rename_i proper
    rw [if_neg proper]
    intro grouped same
    rw [← Option.mem_some_iff.mp same, List.forall_mem_append]
    refine ⟨fun child member => grows.kept child (others child member), ?_⟩
    intro child member
    rw [List.mem_singleton.mp member]
    exact entry

theorem dropSubsumedEpsilonInterned_eq
    {flat : List Regex}
    (entries : ∀ child ∈ flat, (store child).isSome) :
    dropSubsumedEpsilonInterned flat store =
      some (dropSubsumedEpsilon flat, store) := by
  have others : ∀ child ∈
      flat.filter (fun child => decide (child ≠ .epsilon)),
        (store child).isSome :=
    fun child member => entries child (List.mem_filter.mp member).1
  unfold dropSubsumedEpsilonInterned dropSubsumedEpsilon
  by_cases listed : (.epsilon : Regex) ∈ flat
  · rw [if_pos listed, bind_apply_of_eq (sound.anyStored_eq others),
      List.any_filter, decide_eq_true listed, Bool.true_and]
    split_ifs <;> rfl
  · rw [if_neg listed, if_neg (by simp [listed])]
    rfl

theorem dropImpliedPropernessInterned_eq
    {flat : List Regex}
    (entries : ∀ child ∈ flat, (store child).isSome) :
    dropImpliedPropernessInterned flat store =
      some (dropImpliedProperness flat, store) := by
  have others : ∀ child ∈
      flat.filter (fun child => !isEpsilonComplement child),
        (store child).isSome :=
    fun child member => entries child (List.mem_filter.mp member).1
  have opposite : (flat.filter fun child => !isEpsilonComplement child).all
      ExtendedRegex.nullable = !flat.any fun child =>
        !isEpsilonComplement child && !child.nullable := by
    rw [List.all_filter, List.not_any_eq_all_not]
    congr 1
    funext child
    rw [Bool.not_and, Bool.not_not, Bool.not_not]
  unfold dropImpliedPropernessInterned dropImpliedProperness
  rw [bind_apply_of_eq (sound.allStored_eq others), opposite]
  cases flat.any fun child => !isEpsilonComplement child && !child.nullable with
  | true => rfl
  | false => rfl

/-- The union constructor returns what it denotes, an entry of a grown table. -/
theorem interns_regexUnionInterned
    {fuel : Nat}
    {children : List Regex}
    (entries : ∀ child ∈ children, (store child).isSome)
    (deep : ∀ collected ∈ flattenUnion children,
      BooleanTest.depthAll (collected.filterMap testOperand) ≤ fuel) :
    Interns store (regexUnionInterned fuel children)
      (regexUnion children) := by
  have canonical := CanonicalRegex.regexUnion fun child member =>
    sound.canonical child (entries child member)
  unfold regexUnionInterned regexUnion at *
  cases flattened : flattenUnion children with
  | none => exact sound.interns_pure sound.all
  | some collected =>
      rw [flattened] at canonical
      have collectedEntries := entries_of_flattenUnion sound entries flattened
      refine Interns.of_grown (returns_groupUnionTestsInterned sound
        collectedEntries (deep collected flattened)) ?_
      rintro grouped middle ⟨groupedEq, groupedEntries⟩ grows
      dsimp only at groupedEq groupedEntries canonical ⊢
      rw [groupedEq] at groupedEntries ⊢
      by_cases complements : pairSatisfies complementaryRegex
          (sortDedup (groupUnionTests collected)) = true
      · rw [if_pos complements, if_pos complements]
        exact grows.sound.interns_pure grows.sound.all
      · rw [if_neg complements] at canonical
        rw [if_neg complements, if_neg complements]
        have flatEntries : ∀ child ∈ sortDedup (groupUnionTests collected),
            (middle child).isSome :=
          fun child member => groupedEntries child (mem_sortDedup.mp member)
        refine .of_step (dropSubsumedEpsilonInterned_eq grows.sound
          flatEntries) ?_
        refine interns_closeUnionInterned grows.sound ?_ canonical
        intro child member
        exact flatEntries child ((dropSubsumedEpsilon_sublist _).subset
          ((retainRegexes_sublist _ _).subset member))

/-- The intersection constructor returns what it denotes, an entry of a grown
table. -/
theorem interns_regexIntersectInterned
    {fuel : Nat}
    {children : List Regex}
    (entries : ∀ child ∈ children, (store child).isSome)
    (deep : ∀ collected ∈ flattenIntersect children,
      BooleanTest.depthAll (collected.filterMap testOperand) ≤ fuel) :
    Interns store (regexIntersectInterned fuel children)
      (regexIntersect children) := by
  have canonical := CanonicalRegex.regexIntersect fun child member =>
    sound.canonical child (entries child member)
  unfold regexIntersectInterned regexIntersect at *
  cases flattened : flattenIntersect children with
  | none => exact sound.interns_pure sound.empty
  | some collected =>
      rw [flattened] at canonical
      have collectedEntries :=
        entries_of_flattenIntersect sound entries flattened
      refine Interns.of_grown (returns_groupIntersectTestsInterned sound
        collectedEntries (deep collected flattened)) ?_
      rintro outcome middle ⟨outcomeEq, outcomeEntries⟩ grows
      dsimp only at outcomeEq outcomeEntries canonical ⊢
      rw [outcomeEq] at outcomeEntries ⊢
      cases groupedEq : groupIntersectTests collected with
      | none => exact grows.sound.interns_pure grows.sound.empty
      | some grouped =>
          rw [groupedEq] at canonical
          dsimp only at canonical ⊢
          have flatEntries : ∀ child ∈ sortDedup grouped,
              (middle child).isSome := fun child member =>
            outcomeEntries grouped groupedEq child (mem_sortDedup.mp member)
          by_cases complements : pairSatisfies complementaryRegex
              (sortDedup grouped) = true
          · rw [if_pos complements, if_pos complements]
            exact grows.sound.interns_pure grows.sound.empty
          · rw [if_neg complements] at canonical
            rw [if_neg complements, if_neg complements]
            by_cases listed : (.epsilon : Regex) ∈ sortDedup grouped
            · rw [if_pos listed, if_pos listed]
              refine .of_step (grows.sound.allStored_eq flatEntries) ?_
              cases (sortDedup grouped).all ExtendedRegex.nullable with
              | true => exact grows.sound.interns_pure grows.sound.epsilon
              | false => exact grows.sound.interns_pure grows.sound.empty
            · rw [if_neg listed] at canonical
              rw [if_neg listed, if_neg listed]
              refine .of_step (dropImpliedPropernessInterned_eq grows.sound
                flatEntries) ?_
              refine interns_closeIntersectInterned grows.sound ?_ canonical
              intro child member
              exact flatEntries child ((dropImpliedProperness_sublist _).subset
                ((retainRegexes_sublist _ _).subset member))

theorem interns_regexConcatInterned
    {children : List Regex}
    (entries : ∀ child ∈ children, (store child).isSome) :
    Interns store (regexConcatInterned children) (regexConcat children) := by
  have canonical := CanonicalRegex.regexConcat fun child member =>
    sound.canonical child (entries child member)
  unfold regexConcatInterned regexConcat at *
  cases flattened : flattenConcat children with
  | none => exact sound.interns_pure sound.empty
  | some flat =>
      rw [flattened] at canonical
      exact interns_closeConcatInterned sound
        (entries_of_flattenConcat sound entries flattened) canonical

theorem interns_regexStarInterned
    {inner : Regex}
    (entry : (store inner).isSome) :
    Interns store (regexStarInterned inner) (regexStar inner) := by
  have interned := sound.interns_internRegex
    (.star (sound.canonical inner entry)) fun operand member => by
      rw [List.mem_singleton.mp member]
      exact entry
  rw [ExtendedRegex.nullable] at interned
  cases inner with
  | empty => exact sound.interns_pure sound.epsilon
  | epsilon => exact sound.interns_pure sound.epsilon
  | all => exact sound.interns_pure sound.all
  | star inner => exact sound.interns_pure entry
  | test value =>
      cases value with
      | tt => exact sound.interns_pure sound.all
      | _ => exact interned
  | _ => exact interned

theorem interns_regexNotInterned
    {inner : Regex}
    (entry : (store inner).isSome) :
    Interns store (regexNotInterned inner) (regexNot inner) := by
  have interned : Interns store (do
      let entries ← get
      let nullable ← StateT.lift (entries inner)
      internRegex (.not inner) (!nullable)) (.not inner) := by
    have read : (StateT.lift (store inner) : StoreProgram Bool) store =
        some (inner.nullable, store) := by
      rw [sound.stored_eq entry]
      rfl
    rw [Interns, get_bind_apply, bind_apply_of_eq read]
    have same := sound.interns_internRegex
      (.not (sound.canonical inner entry)) fun operand member => by
        rw [List.mem_singleton.mp member]
        exact entry
    rwa [ExtendedRegex.nullable] at same
  cases inner with
  | empty => exact sound.interns_pure sound.all
  | all => exact sound.interns_pure sound.empty
  | not inner =>
      exact sound.interns_pure (sound.operands _ entry _ List.mem_cons_self)
  | _ => exact interned

end Constructors

/-! ## Sequences of calls -/

/-- A normalizer: the tests it returned, and its table of regexes. -/
structure Normalizer where
  /-- The tests returned so far. -/
  tests : List TestNode
  /-- The interned regexes. -/
  regexes : RegexStore

/-- A normalizer before any call. -/
def Normalizer.new : Normalizer where
  tests := [.tt, .ff]
  regexes := .new

/-- A call of a test constructor. -/
inductive TestCall
  | atom (value : TestAtom)
  | and (children : List TestNode)
  | or (children : List TestNode)
  | not (inner : TestNode)

/-- A call of a regex constructor. -/
inductive RegexCall
  | test (value : TestNode)
  | union (children : List Regex)
  | intersect (children : List Regex)
  | concat (children : List Regex)
  | star (inner : Regex)
  | not (inner : Regex)

namespace TestCall

/-- The operands of a call. -/
def operands : TestCall -> List TestNode
  | .atom _ => []
  | .and children => children
  | .or children => children
  | .not inner => [inner]

/-- Runs a call within a depth of recursion. -/
def run (fuel : Nat) : TestCall -> Option TestNode
  | .atom value => some (.atom value)
  | .and children => testConnectiveWithin (testNotWithin fuel) children .and
  | .or children => testConnectiveWithin (testNotWithin fuel) children .or
  | .not inner => testNotWithin fuel inner

/-- A call returns: with enough depth, it returns the same test. -/
def ReturnsTest (call : TestCall) (result : TestNode) : Prop :=
  ∃ bound, ∀ fuel, bound ≤ fuel -> call.run fuel = some result

/-- The operation a call stands for, on one event. -/
def holds
    (substitution : CandidateSubstitution)
    (event : Event) : TestCall -> Bool
  | .atom value =>
      value.comparison.apply (value.pattern.matchesEvent substitution event)
  | .and children =>
      children.all fun child => evalTest child event substitution
  | .or children =>
      children.any fun child => evalTest child event substitution
  | .not inner => !evalTest inner event substitution

end TestCall

namespace RegexCall

/-- The regex operands of a call. -/
def operands : RegexCall -> List Regex
  | .test _ => []
  | .union children => children
  | .intersect children => children
  | .concat children => children
  | .star inner => [inner]
  | .not inner => [inner]

/-- The test operands of a call. -/
def tests : RegexCall -> List TestNode
  | .test value => [value]
  | _ => []

/-- Runs a call within a depth of recursion. -/
def run (fuel : Nat) : RegexCall -> StoreProgram Regex
  | .test value => regexTestInterned value
  | .union children => regexUnionInterned fuel children
  | .intersect children => regexIntersectInterned fuel children
  | .concat children => regexConcatInterned children
  | .star inner => regexStarInterned inner
  | .not inner => regexNotInterned inner

/-- A call returns: with enough depth, it returns the same regex and table. -/
def ReturnsRegex
    (call : RegexCall)
    (store : RegexStore)
    (result : Regex)
    (next : RegexStore) : Prop :=
  ∃ bound, ∀ fuel, bound ≤ fuel -> call.run fuel store = some (result, next)

/-- The operation a call stands for, on languages. -/
def language
    (substitution : CandidateSubstitution) : RegexCall -> Language Event
  | .test value => { word | ∃ event, word = [event] ∧
      evalTest value event substitution = true }
  | .union children => { word | ∃ child ∈ children,
      word ∈ (eventAlphabet substitution).language child }
  | .intersect children => { word | ∀ child ∈ children,
      word ∈ (eventAlphabet substitution).language child }
  | .concat children =>
      (children.map (eventAlphabet substitution).language).prod
  | .star inner => KStar.kstar ((eventAlphabet substitution).language inner)
  | .not inner => ((eventAlphabet substitution).language inner)ᶜ

end RegexCall

/-- Normalizers after any sequence of calls, each on what earlier calls
returned. -/
inductive Normalizer.Called : Normalizer -> Prop
  | new : Called .new
  | test
      {normalizer : Normalizer}
      (called : Called normalizer)
      (call : TestCall)
      (known : ∀ operand ∈ call.operands, operand ∈ normalizer.tests)
      {result : TestNode}
      (returned : call.ReturnsTest result) :
      Called { normalizer with tests := result :: normalizer.tests }
  | regex
      {normalizer : Normalizer}
      (called : Called normalizer)
      (call : RegexCall)
      (knownTests : ∀ operand ∈ call.tests, operand ∈ normalizer.tests)
      (known : ∀ operand ∈ call.operands,
        (normalizer.regexes operand).isSome)
      {result : Regex}
      {next : RegexStore}
      (returned : call.ReturnsRegex normalizer.regexes result next) :
      Called { normalizer with regexes := next }

/-- A program that returns the same at any great enough depth. -/
theorem exists_bound_of_interns
    {store : RegexStore}
    {result : Regex}
    (program : Nat -> StoreProgram Regex)
    (bound : Nat)
    (interns : Interns store (program bound) result)
    (settled : ∀ fuel, bound ≤ fuel -> program fuel = program bound) :
    ∃ next, (∃ bound, ∀ fuel, bound ≤ fuel ->
        program fuel store = some (result, next)) ∧
      Grows store next ∧ (next result).isSome := by
  obtain ⟨⟨other, next⟩, returned, same, grows, entry⟩ := interns
  dsimp only at same
  rw [same] at returned
  refine ⟨next, ⟨bound, fun fuel deep => ?_⟩, grows, entry⟩
  rw [settled fuel deep, returned]

/-- Grouping the tests of a union settles at their depth. -/
theorem regexUnionInterned_settled
    {store : RegexStore}
    (sound : StoreSound store)
    {children : List Regex}
    (entries : ∀ child ∈ children, (store child).isSome)
    {first second : Nat}
    (firstDeep : ∀ collected ∈ flattenUnion children,
      BooleanTest.depthAll (collected.filterMap testOperand) ≤ first)
    (secondDeep : ∀ collected ∈ flattenUnion children,
      BooleanTest.depthAll (collected.filterMap testOperand) ≤ second) :
    regexUnionInterned first children = regexUnionInterned second children := by
  unfold regexUnionInterned
  cases flattened : flattenUnion children with
  | none => rfl
  | some collected =>
      have testsCanonical := canonical_of_entries sound
        (entries_of_flattenUnion sound entries flattened)
      have grouped : groupUnionTestsInterned first collected =
          groupUnionTestsInterned second collected := by
        unfold groupUnionTestsInterned
        dsimp only
        rw [testConnectiveWithin_testNotWithin .or testsCanonical
            (firstDeep collected flattened),
          testConnectiveWithin_testNotWithin .or testsCanonical
            (secondDeep collected flattened)]
      simp only [grouped]

theorem regexIntersectInterned_settled
    {store : RegexStore}
    (sound : StoreSound store)
    {children : List Regex}
    (entries : ∀ child ∈ children, (store child).isSome)
    {first second : Nat}
    (firstDeep : ∀ collected ∈ flattenIntersect children,
      BooleanTest.depthAll (collected.filterMap testOperand) ≤ first)
    (secondDeep : ∀ collected ∈ flattenIntersect children,
      BooleanTest.depthAll (collected.filterMap testOperand) ≤ second) :
    regexIntersectInterned first children =
      regexIntersectInterned second children := by
  unfold regexIntersectInterned
  cases flattened : flattenIntersect children with
  | none => rfl
  | some collected =>
      have testsCanonical := canonical_of_entries sound
        (entries_of_flattenIntersect sound entries flattened)
      have grouped : groupIntersectTestsInterned first collected =
          groupIntersectTestsInterned second collected := by
        unfold groupIntersectTestsInterned
        dsimp only
        rw [testConnectiveWithin_testNotWithin .and testsCanonical
            (firstDeep collected flattened),
          testConnectiveWithin_testNotWithin .and testsCanonical
            (secondDeep collected flattened)]
      simp only [grouped]

omit [LinearOrder TestNode] [LinearOrder Regex] in
/-- A bound on the depths in an optional list of operands. -/
theorem exists_depthAll_bound (collected : Option (List Regex)) :
    ∃ bound, ∀ flat ∈ collected,
      BooleanTest.depthAll (flat.filterMap testOperand) ≤ bound := by
  cases collected with
  | none => exact ⟨0, fun flat absent => by cases absent⟩
  | some flat =>
      refine ⟨BooleanTest.depthAll (flat.filterMap testOperand), ?_⟩
      intro other same
      rw [Option.mem_some_iff.mp same]

omit [LinearOrder Regex] in
/-- A test call on canonical tests returns the operation it stands for. -/
theorem TestCall.returns
    {call : TestCall}
    (canonical : ∀ operand ∈ call.operands, CanonicalTest operand) :
    ∃ result, call.ReturnsTest result ∧ CanonicalTest result ∧
      ∀ (substitution : CandidateSubstitution) (event : Event),
        evalTest result event substitution =
          call.holds substitution event := by
  cases call with
  | atom value =>
      exact ⟨.atom value, ⟨0, fun _ _ => rfl⟩, .atom value, fun _ _ => rfl⟩
  | and children =>
      refine ⟨testAnd children, ⟨BooleanTest.depthAll children,
        fun fuel deep => testConnectiveWithin_testNotWithin .and canonical
          deep⟩, .testAnd canonical, ?_⟩
      intro substitution event
      rw [evalTest_eq]
      exact holdsUnder_testAnd
        ((eventAlphabet substitution).consistent event) canonical
  | or children =>
      refine ⟨testOr children, ⟨BooleanTest.depthAll children,
        fun fuel deep => testConnectiveWithin_testNotWithin .or canonical
          deep⟩, .testOr canonical, ?_⟩
      intro substitution event
      rw [evalTest_eq]
      exact holdsUnder_testOr
        ((eventAlphabet substitution).consistent event) canonical
  | not inner =>
      have innerCanonical := canonical inner List.mem_cons_self
      refine ⟨testNot inner, ⟨inner.depth, fun fuel deep =>
        testNotWithin_eq innerCanonical deep⟩, innerCanonical.testNot, ?_⟩
      intro substitution event
      rw [evalTest_eq, holdsUnder_testNot
        ((eventAlphabet substitution).consistent event) innerCanonical]
      rfl

/-- A regex call on entries returns the operation it stands for. -/
theorem RegexCall.returns
    {store : RegexStore}
    (sound : StoreSound store)
    {call : RegexCall}
    (testsCanonical : ∀ operand ∈ call.tests, CanonicalTest operand)
    (entries : ∀ operand ∈ call.operands, (store operand).isSome) :
    ∃ result next, call.ReturnsRegex store result next ∧
      Grows store next ∧ (next result).isSome ∧
        ∀ substitution, (eventAlphabet substitution).language result =
          call.language substitution := by
  have canonical : ∀ operand ∈ call.operands, CanonicalRegex operand :=
    fun operand member => sound.canonical operand (entries operand member)
  cases call with
  | test value =>
      obtain ⟨next, returned, grows, entry⟩ := exists_bound_of_interns
        (fun _ => regexTestInterned value) 0
        (interns_regexTestInterned sound
          (testsCanonical value List.mem_cons_self)) fun _ _ => rfl
      refine ⟨_, next, returned, grows, entry, fun substitution => ?_⟩
      ext word
      exact mem_language_regexTest
  | union children =>
      obtain ⟨bound, deep⟩ := exists_depthAll_bound (flattenUnion children)
      obtain ⟨next, returned, grows, entry⟩ := exists_bound_of_interns
        (regexUnionInterned · children) bound
        (interns_regexUnionInterned sound entries deep)
        fun fuel deeper => regexUnionInterned_settled sound entries
          (fun collected found => (deep collected found).trans deeper) deep
      refine ⟨_, next, returned, grows, entry, fun substitution => ?_⟩
      ext word
      exact mem_language_regexUnion canonical
  | intersect children =>
      obtain ⟨bound, deep⟩ :=
        exists_depthAll_bound (flattenIntersect children)
      obtain ⟨next, returned, grows, entry⟩ := exists_bound_of_interns
        (regexIntersectInterned · children) bound
        (interns_regexIntersectInterned sound entries deep)
        fun fuel deeper => regexIntersectInterned_settled sound entries
          (fun collected found => (deep collected found).trans deeper) deep
      refine ⟨_, next, returned, grows, entry, fun substitution => ?_⟩
      ext word
      exact mem_language_regexIntersect canonical
  | concat children =>
      obtain ⟨next, returned, grows, entry⟩ := exists_bound_of_interns
        (fun _ => regexConcatInterned children) 0
        (interns_regexConcatInterned sound entries) fun _ _ => rfl
      exact ⟨_, next, returned, grows, entry, fun _ =>
        language_regexConcat children⟩
  | star inner =>
      obtain ⟨next, returned, grows, entry⟩ := exists_bound_of_interns
        (fun _ => regexStarInterned inner) 0
        (interns_regexStarInterned sound (entries inner List.mem_cons_self))
        fun _ _ => rfl
      exact ⟨_, next, returned, grows, entry, fun _ => language_regexStar inner⟩
  | not inner =>
      obtain ⟨next, returned, grows, entry⟩ := exists_bound_of_interns
        (fun _ => regexNotInterned inner) 0
        (interns_regexNotInterned sound (entries inner List.mem_cons_self))
        fun _ _ => rfl
      refine ⟨_, next, returned, grows, entry, fun substitution => ?_⟩
      ext word
      exact mem_language_regexNot

omit [LinearOrder Regex] in
/-- What calls return at great enough depth is unique. -/
theorem TestCall.ReturnsTest.eq
    {call : TestCall}
    {first second : TestNode}
    (one : call.ReturnsTest first)
    (two : call.ReturnsTest second) : first = second := by
  obtain ⟨firstBound, firstReturns⟩ := one
  obtain ⟨secondBound, secondReturns⟩ := two
  exact Option.some.inj
    ((firstReturns (max firstBound secondBound) (le_max_left _ _)).symm.trans
      (secondReturns (max firstBound secondBound) (le_max_right _ _)))

theorem RegexCall.ReturnsRegex.eq
    {call : RegexCall}
    {store firstNext secondNext : RegexStore}
    {first second : Regex}
    (one : call.ReturnsRegex store first firstNext)
    (two : call.ReturnsRegex store second secondNext) :
    firstNext = secondNext := by
  obtain ⟨firstBound, firstReturns⟩ := one
  obtain ⟨secondBound, secondReturns⟩ := two
  have same := Option.some.inj
    ((firstReturns (max firstBound secondBound) (le_max_left _ _)).symm.trans
      (secondReturns (max firstBound secondBound) (le_max_right _ _)))
  exact congrArg Prod.snd same

/-- Along every sequence of calls, the tests are canonical and the table is sound.
-/
theorem Normalizer.Called.sound
    {normalizer : Normalizer}
    (called : normalizer.Called) :
    (∀ test ∈ normalizer.tests, CanonicalTest test) ∧
      StoreSound normalizer.regexes := by
  induction called with
  | new =>
      refine ⟨?_, .new⟩
      intro test member
      rcases List.mem_cons.mp member with rfl | other
      · exact .tt
      · rw [List.mem_singleton.mp other]
        exact .ff
  | test _ call known returned hypothesis =>
      obtain ⟨testsCanonical, sound⟩ := hypothesis
      obtain ⟨result, returns, canonical, _⟩ := TestCall.returns
        fun operand member => testsCanonical operand (known operand member)
      refine ⟨List.forall_mem_cons.mpr ⟨?_, testsCanonical⟩, sound⟩
      rw [returned.eq returns]
      exact canonical
  | regex _ call knownTests known returned hypothesis =>
      obtain ⟨testsCanonical, sound⟩ := hypothesis
      obtain ⟨result, next, returns, grows, _⟩ := RegexCall.returns sound
        (fun operand member =>
          testsCanonical operand (knownTests operand member)) known
      refine ⟨testsCanonical, ?_⟩
      rw [returned.eq returns]
      exact grows.sound

/-- Along every sequence of constructor calls on one normalizer, each further call
returns, without a failed assertion, the test or the regex of the operation it
stands for; and every interned nullability is whether the empty history belongs
to the language. -/
theorem Normalizer.Called.calls_return
    {normalizer : Normalizer}
    (called : normalizer.Called) :
    (∀ call : TestCall,
      (∀ operand ∈ call.operands, operand ∈ normalizer.tests) ->
        ∃ result, call.ReturnsTest result ∧
          ∀ (substitution : CandidateSubstitution) (event : Event),
            evalTest result event substitution =
              call.holds substitution event) ∧
    (∀ call : RegexCall,
      (∀ operand ∈ call.tests, operand ∈ normalizer.tests) ->
      (∀ operand ∈ call.operands, (normalizer.regexes operand).isSome) ->
        ∃ result next, call.ReturnsRegex normalizer.regexes result next ∧
          (next result).isSome ∧
          ∀ substitution, (eventAlphabet substitution).language result =
            call.language substitution) ∧
    (∀ regex stored, normalizer.regexes regex = some stored ->
      ∀ substitution, stored = true ↔
        [] ∈ (eventAlphabet substitution).language regex) := by
  obtain ⟨testsCanonical, sound⟩ := called.sound
  refine ⟨?_, ?_, ?_⟩
  · intro call known
    obtain ⟨result, returned, _, meaning⟩ := TestCall.returns
      fun operand member => testsCanonical operand (known operand member)
    exact ⟨result, returned, meaning⟩
  · intro call knownTests known
    obtain ⟨result, next, returned, _, entry, meaning⟩ :=
      RegexCall.returns sound
        (fun operand member =>
          testsCanonical operand (knownTests operand member)) known
    exact ⟨result, next, returned, entry, meaning⟩
  · intro regex stored found substitution
    rw [sound.nullable regex stored found]
    exact (eventAlphabet substitution).nullable_iff regex

/-- A call of a regex constructor can be made, and keeps the entries. -/
theorem Normalizer.Called.exists_regex
    {normalizer : Normalizer}
    (called : normalizer.Called)
    (call : RegexCall)
    (knownTests : ∀ operand ∈ call.tests, operand ∈ normalizer.tests)
    (known : ∀ operand ∈ call.operands,
      (normalizer.regexes operand).isSome) :
    ∃ result next,
      Normalizer.Called { normalizer with regexes := next } ∧
        Grows normalizer.regexes next ∧ (next result).isSome ∧
          ∀ substitution, (eventAlphabet substitution).language result =
            call.language substitution := by
  obtain ⟨testsCanonical, sound⟩ := called.sound
  obtain ⟨result, next, returned, grows, entry, meaning⟩ :=
    RegexCall.returns sound (fun operand member =>
      testsCanonical operand (knownTests operand member)) known
  exact ⟨result, next, called.regex call knownTests known returned, grows,
    entry, meaning⟩

end Order

/-- A normalizer is called for two tests, their disjunction, a regex of the first
and of the disjunction, and the complement of the first: then the union of the
first with its complement is everything, and the intersection of the other with
it keeps the owner's reads and none of the edits. -/
theorem calls_return_afterComplement :
    letI := someOrder TestNode
    letI := someOrder Regex
    ∃ (normalizer : Normalizer) (edit other outside : Regex),
      normalizer.Called ∧
        (∃ union next,
          (RegexCall.union [edit, outside]).ReturnsRegex normalizer.regexes
              union next ∧
            ∀ substitution word,
              word ∈ (eventAlphabet substitution).language union) ∧
        (∃ intersection next,
          (RegexCall.intersect [other, outside]).ReturnsRegex
              normalizer.regexes intersection next ∧
            ([⟨⟨"bob"⟩, .read, ⟨["a"]⟩⟩] ∈ (eventAlphabet
              (.singleton "owner" (.principal ⟨"bob"⟩))).language
                intersection) ∧
            ∀ substitution principal resource,
              [⟨principal, .edit, resource⟩] ∉
                (eventAlphabet substitution).language intersection) := by
  let _ := someOrder TestNode
  let _ := someOrder Regex
  -- The tests, and their disjunction.
  have first := Normalizer.Called.new.test (.atom ⟨.eq, .action (.constant .edit)⟩)
    (fun operand member => by cases member) ⟨0, fun _ _ => rfl⟩
  have second := first.test (.atom ⟨.eq, .principal (.variable "owner")⟩)
    (fun operand member => by cases member) ⟨0, fun _ _ => rfl⟩
  have listed : ∀ operand ∈ (TestCall.or [isEdit, byOwner]).operands,
      operand ∈ [byOwner, isEdit, .tt, .ff] := by
    rintro operand (_ | ⟨_, _ | ⟨_, absent⟩⟩)
    · simp
    · simp
    · cases absent
  obtain ⟨either, eitherReturned, _, eitherHolds⟩ := TestCall.returns
    fun operand member => second.sound.1 operand (listed operand member)
  have third := second.test _ listed eitherReturned
  -- The regexes of the first and of the disjunction, and the complement.
  obtain ⟨edit, editTable, fourth, _, editEntry, editWords⟩ :=
    third.exists_regex (.test isEdit) (by simp [RegexCall.tests, isEdit])
      (fun operand member => by cases member)
  obtain ⟨other, otherTable, fifth, otherGrows, otherEntry, otherWords⟩ :=
    fourth.exists_regex (.test either) (by simp [RegexCall.tests])
      (fun operand member => by cases member)
  obtain ⟨outside, table, sixth, grows, outsideEntry, outsideWords⟩ :=
    fifth.exists_regex (.not edit) (fun operand member => by cases member)
      (fun operand member => by
        rw [List.mem_singleton.mp member]
        exact otherGrows.kept edit editEntry)
  obtain ⟨_, regexCalls, _⟩ := Normalizer.Called.calls_return sixth
  refine ⟨_, edit, other, outside, sixth, ?_, ?_⟩
  · obtain ⟨union, next, returned, _, words⟩ :=
      regexCalls (.union [edit, outside])
        (fun operand member => by cases member) (by
          rintro operand (_ | ⟨_, _ | ⟨_, absent⟩⟩)
          · exact grows.kept edit (otherGrows.kept edit editEntry)
          · exact outsideEntry
          · cases absent)
    refine ⟨union, next, returned, fun substitution word => ?_⟩
    rw [words]
    by_cases inside : word ∈ (eventAlphabet substitution).language edit
    · exact ⟨edit, by simp, inside⟩
    · refine ⟨outside, by simp, ?_⟩
      rw [outsideWords]
      exact inside
  · obtain ⟨intersection, next, returned, _, words⟩ :=
      regexCalls (.intersect [other, outside])
        (fun operand member => by cases member) (by
          rintro operand (_ | ⟨_, _ | ⟨_, absent⟩⟩)
          · exact grows.kept other otherEntry
          · exact outsideEntry
          · cases absent)
    refine ⟨intersection, next, returned, ?_, fun substitution principal resource
      member => ?_⟩
    · rw [words]
      rintro part (_ | ⟨_, _ | ⟨_, absent⟩⟩)
      · rw [otherWords]
        exact ⟨_, rfl, by rw [eitherHolds]; rfl⟩
      · rw [outsideWords]
        intro (inside : _ ∈ (eventAlphabet _).language edit)
        rw [editWords] at inside
        obtain ⟨event, same, holds⟩ := inside
        rw [← (List.singleton_injective same)] at holds
        cases holds
      · cases absent
    · rw [words] at member
      have outer := member outside (by simp)
      rw [outsideWords] at outer
      refine outer ?_
      rw [editWords]
      exact ⟨_, rfl, rfl⟩

end Validator
end Marsh
