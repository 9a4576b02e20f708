import Mathlib.Data.Nat.Bitwise
import Marsh.Validator.Derivative

/-!
# Correctness of the symbolic matcher

Whatever the caches hold, a step of the matcher selects the regex that
evaluating every guard selects, so a complete history is accepted exactly when
it belongs to the language of the root.
-/

namespace Marsh
namespace Validator

open Library

/-! ## Minterms -/

theorem testBit_foldl_minterm
    (holds : AtomPattern -> Bool)
    (atoms : List AtomPattern)
    (offset assignment index : Nat) :
    ((atoms.zipIdx offset).foldl
      (fun assignment atom =>
        assignment ||| ((holds atom.1).toNat <<< atom.2)) assignment).testBit
          index =
      (assignment.testBit index ||
        (decide (offset ≤ index) &&
          (atoms[index - offset]?).any holds)) := by
  induction atoms generalizing offset assignment with
  | nil => simp
  | cons atom atoms hypothesis =>
      rw [List.zipIdx_cons, List.foldl_cons, hypothesis, Nat.testBit_or,
        Nat.testBit_shiftLeft, Nat.testBit_bool_toNat]
      rcases Nat.lt_trichotomy index offset with below | equal | above
      · simp [show ¬ offset ≤ index by omega,
          show ¬ offset + 1 ≤ index by omega]
      · subst equal
        simp
      · obtain ⟨distance, rfl⟩ : ∃ distance, index = offset + 1 + distance :=
          ⟨index - (offset + 1), by omega⟩
        have shifted : offset + 1 + distance - offset = distance + 1 := by omega
        simp [shifted, show offset ≤ offset + 1 + distance by omega]

/-- Bit `index` of the minterm tells whether the atom at `index` holds. -/
theorem testBit_mintermOf
    (holds : AtomPattern -> Bool)
    (atoms : List AtomPattern)
    (index : Nat) :
    (mintermOf holds atoms).testBit index = (atoms[index]?).any holds := by
  rw [mintermOf, testBit_foldl_minterm]
  simp

/-- A minterm indexes the table of its atoms. -/
theorem mintermOf_lt
    (holds : AtomPattern -> Bool)
    (atoms : List AtomPattern) :
    mintermOf holds atoms < 2 ^ atoms.length := by
  refine Nat.lt_pow_two_of_testBit _ fun index beyond => ?_
  rw [testBit_mintermOf, List.getElem?_eq_none beyond]
  rfl

/-- The minterm assigns to every listed atom the given truth value. -/
def Assigns
    (minterm : Nat)
    (atoms : List AtomPattern)
    (holds : AtomPattern -> Bool) : Prop :=
  ∀ index atom, atoms[index]? = some atom ->
    minterm.testBit index = holds atom

theorem assigns_mintermOf
    (holds : AtomPattern -> Bool)
    (atoms : List AtomPattern) :
    Assigns (mintermOf holds atoms) atoms holds := by
  intro index atom found
  rw [testBit_mintermOf, found]
  rfl

/-- Every minterm assigns some truth values to distinct atoms. -/
theorem exists_assigns
    {atoms : List AtomPattern}
    (distinct : atoms.Nodup)
    (minterm : Nat) :
    ∃ holds, Assigns minterm atoms holds := by
  refine ⟨fun atom => minterm.testBit (atoms.idxOf atom), ?_⟩
  intro index atom found
  obtain ⟨inRange, rfl⟩ := List.getElem?_eq_some_iff.mp found
  exact congrArg minterm.testBit (distinct.idxOf_getElem _ inRange).symm

theorem mem_collectTestAtomsAll
    {children : List TestNode}
    {atom : AtomPattern} :
    atom ∈ collectTestAtomsAll children ↔
      ∃ child ∈ children, atom ∈ collectTestAtoms child := by
  induction children with
  | nil => simp [collectTestAtomsAll]
  | cons child children hypothesis =>
      rw [collectTestAtomsAll, List.mem_append, hypothesis]
      simp

/-- A minterm decides a test like the truth values it assigns. -/
theorem evalTestMinterm_eq
    {atoms : List AtomPattern}
    {minterm : Nat}
    {holds : AtomPattern -> Bool}
    (assigns : Assigns minterm atoms holds)
    {test : TestNode}
    (listed : ∀ atom ∈ collectTestAtoms test, atom ∈ atoms) :
    evalTestMinterm atoms minterm test = some (holdsUnder holds test) := by
  induction test using BooleanTest.induction with
  | tt => simp [evalTestMinterm]
  | ff => simp [evalTestMinterm]
  | atom atom =>
      have member : atom.pattern ∈ atoms := listed _ (by simp [collectTestAtoms])
      rw [evalTestMinterm]
      cases found : atoms.findIdx? fun pattern =>
          decide (pattern = atom.pattern) with
      | none =>
          rw [List.findIdx?_eq_none_iff] at found
          simpa using found _ member
      | some index =>
          rw [List.findIdx?_eq_some_iff_getElem] at found
          obtain ⟨inRange, matched, _⟩ := found
          have bit := assigns index atoms[index]
            (List.getElem?_eq_getElem inRange)
          rw [of_decide_eq_true matched] at bit
          have masked : decide (minterm &&& (1 <<< index) ≠ 0) =
              minterm.testBit index := by
            rw [Nat.one_shiftLeft, Nat.and_two_pow]
            cases minterm.testBit index <;> simp
          change some (atom.comparison.apply
            (decide (minterm &&& (1 <<< index) ≠ 0))) = _
          rw [masked, bit, holdsUnder, BooleanTest.eval_atom, truthOf]
  | and children hypothesis =>
      have childListed : ∀ child ∈ children,
          ∀ atom ∈ collectTestAtoms child, atom ∈ atoms :=
        fun child member atom atomMem => listed atom
          (mem_collectTestAtomsAll.mpr ⟨child, member, atomMem⟩)
      rw [evalTestMinterm, holdsUnder, BooleanTest.eval_and]
      clear listed
      induction children with
      | nil => simp [evalTestMintermAll]
      | cons child children tailHypothesis =>
          rw [evalTestMintermAll, hypothesis child List.mem_cons_self
            (childListed child List.mem_cons_self)]
          have tail := tailHypothesis
            (fun other member => hypothesis other (List.mem_cons_of_mem _ member))
            (fun other member => childListed other (List.mem_cons_of_mem _ member))
          cases childHolds : holdsUnder holds child <;>
            simp_all
  | or children hypothesis =>
      have childListed : ∀ child ∈ children,
          ∀ atom ∈ collectTestAtoms child, atom ∈ atoms :=
        fun child member atom atomMem => listed atom
          (mem_collectTestAtomsAll.mpr ⟨child, member, atomMem⟩)
      rw [evalTestMinterm, holdsUnder, BooleanTest.eval_or]
      clear listed
      induction children with
      | nil => simp [evalTestMintermAny]
      | cons child children tailHypothesis =>
          rw [evalTestMintermAny, hypothesis child List.mem_cons_self
            (childListed child List.mem_cons_self)]
          have tail := tailHypothesis
            (fun other member => hypothesis other (List.mem_cons_of_mem _ member))
            (fun other member => childListed other (List.mem_cons_of_mem _ member))
          cases childHolds : holdsUnder holds child <;>
            simp_all

theorem mem_collectTransitionAtomsAll
    {children : List TransitionNode}
    {atom : AtomPattern} :
    atom ∈ collectTransitionAtomsAll children ↔
      ∃ child ∈ children, atom ∈ collectTransitionAtomsInto child := by
  induction children with
  | nil => simp [collectTransitionAtomsAll]
  | cons child children hypothesis =>
      rw [collectTransitionAtomsAll, List.mem_append, hypothesis]
      simp

theorem mem_collectTransitionAtoms
    {transition : TransitionNode}
    {atom : AtomPattern} :
    atom ∈ collectTransitionAtoms transition ↔
      atom ∈ collectTransitionAtomsInto transition := by
  rw [collectTransitionAtoms, List.mem_eraseDups]

theorem nodup_collectTransitionAtoms (transition : TransitionNode) :
    (collectTransitionAtoms transition).Nodup := by
  unfold collectTransitionAtoms
  generalize collectTransitionAtomsInto transition = atoms
  induction bound : atoms.length using Nat.strong_induction_on
    generalizing atoms with
  | _ bound hypothesis =>
      subst bound
      cases atoms with
      | nil => simp
      | cons atom atoms =>
          rw [List.eraseDups_cons, List.nodup_cons]
          refine ⟨by simp, hypothesis _ ?_ _ rfl⟩
          exact Nat.lt_succ_of_le (List.length_filter_le _ _)

section Order

variable [LinearOrder TestNode] [LinearOrder Regex]

mutual

/-- Interprets a transition, given which component patterns hold. -/
def interpret (holds : AtomPattern -> Bool) : TransitionNode -> Regex
  | .const regex => regex
  | .conditional test thenTransition elseTransition =>
      if holdsUnder holds test then interpret holds thenTransition
      else interpret holds elseTransition
  | .union children => regexUnion (interpretAll holds children)
  | .intersect children => regexIntersect (interpretAll holds children)
  | .not inner => regexNot (interpret holds inner)
  | .append transition suffix =>
      regexConcat (interpret holds transition :: suffix)

/-- Interprets the listed transitions. -/
def interpretAll (holds : AtomPattern -> Bool) :
    List TransitionNode -> List Regex
  | [] => []
  | child :: children => interpret holds child :: interpretAll holds children

end

theorem interpretAll_eq_map
    (holds : AtomPattern -> Bool)
    (children : List TransitionNode) :
    interpretAll holds children = children.map (interpret holds) := by
  induction children with
  | nil => rfl
  | cons child children hypothesis =>
      rw [interpretAll, hypothesis, List.map_cons]

variable [LinearOrder TransitionNode]

/-- Evaluation interprets the truth assignment of the event. -/
theorem ClosedTransition.evaluate_eq_interpret
    (substitution : CandidateSubstitution)
    (event : Event)
    {transition : TransitionNode}
    (closed : ClosedTransition transition) :
    evaluate substitution event transition =
      interpret (·.matchesEvent substitution event) transition := by
  induction closed with
  | const => rw [evaluate, interpret]
  | conditional _ _ _ _ _ _ thenHypothesis elseHypothesis =>
      rw [evaluate, interpret, thenHypothesis, elseHypothesis]
      rfl
  | union _ _ _ _ hypothesis =>
      rw [evaluate, interpret, evaluateAll_eq_map,
        interpretAll_eq_map, List.map_congr_left hypothesis]

theorem ClosedTransition.canonical_interpret
    (holds : AtomPattern -> Bool)
    {transition : TransitionNode}
    (closed : ClosedTransition transition) :
    CanonicalRegex (interpret holds transition) := by
  induction closed with
  | const canonical =>
      rw [interpret]
      exact canonical
  | conditional _ _ _ _ _ _ thenHypothesis elseHypothesis =>
      rw [interpret]
      split_ifs
      · exact thenHypothesis
      · exact elseHypothesis
  | union _ _ _ _ hypothesis =>
      rw [interpret, interpretAll_eq_map]
      exact .regexUnion (List.forall_mem_map.mpr hypothesis)

/-- A minterm selects the successor of the truth values it assigns. -/
theorem ClosedTransition.evaluateMinterm_eq
    {atoms : List AtomPattern}
    {minterm : Nat}
    {holds : AtomPattern -> Bool}
    (assigns : Assigns minterm atoms holds)
    {transition : TransitionNode}
    (closed : ClosedTransition transition)
    (listed : ∀ atom ∈ collectTransitionAtomsInto transition, atom ∈ atoms) :
    evaluateMinterm atoms minterm transition =
      some (interpret holds transition) := by
  induction closed with
  | const => rw [evaluateMinterm, interpret]
  | @conditional test _ _ _ _ _ _ _ _ thenHypothesis elseHypothesis =>
      rw [collectTransitionAtomsInto] at listed
      rw [evaluateMinterm, interpret,
        evalTestMinterm_eq assigns fun atom member =>
          listed atom (by simp [member]),
        thenHypothesis fun atom member => listed atom (by simp [member]),
        elseHypothesis fun atom member => listed atom (by simp [member])]
      cases testHolds : holdsUnder holds test <;> simp
  | @union children _ _ _ _ hypothesis =>
      have childListed : ∀ child ∈ children,
          ∀ atom ∈ collectTransitionAtomsInto child, atom ∈ atoms :=
        fun child member atom atomMem => listed atom
          (mem_collectTransitionAtomsAll.mpr ⟨child, member, atomMem⟩)
      have allEq : ∀ listed : List TransitionNode, listed ⊆ children ->
          evaluateMintermAll atoms minterm listed =
            some (interpretAll holds listed) := by
        intro listed subset
        induction listed with
        | nil => rw [evaluateMintermAll, interpretAll]
        | cons child rest restHypothesis =>
            obtain ⟨childMem, restSubset⟩ := List.cons_subset.mp subset
            rw [evaluateMintermAll, interpretAll,
              hypothesis child childMem (childListed child childMem),
              restHypothesis restSubset]
            rfl
      rw [evaluateMinterm, interpret, allEq children (List.Subset.refl _)]
      rfl

/-- The truth assignment of its atoms decides the successor of a transition. -/
theorem ClosedTransition.interpret_congr
    {first second : AtomPattern -> Bool}
    {transition : TransitionNode}
    (closed : ClosedTransition transition)
    (agree : (collectTransitionAtoms transition).map first =
      (collectTransitionAtoms transition).map second) :
    interpret first transition = interpret second transition := by
  have listed : ∀ atom ∈ collectTransitionAtomsInto transition,
      atom ∈ collectTransitionAtoms transition :=
    fun atom member => mem_collectTransitionAtoms.mpr member
  have assigns := assigns_mintermOf first (collectTransitionAtoms transition)
  have alsoAssigns : Assigns
      (mintermOf first (collectTransitionAtoms transition))
      (collectTransitionAtoms transition) second := by
    intro index atom found
    rw [assigns index atom found]
    have both := congrArg (·[index]?) agree
    simpa [found] using both
  exact Option.some.inj
    ((closed.evaluateMinterm_eq assigns listed).symm.trans
      (closed.evaluateMinterm_eq alsoAssigns listed))

/-! ## The derivative cache -/

/-- Everything the persistent cache holds is what would be computed. -/
structure CacheSound (cache : SymbolicDerivativeCache) : Prop where
  derivatives : ∀ regex transition,
    cache.derivatives regex = some transition ->
      symbolicDerivative regex = some transition
  atoms : ∀ transition atoms, cache.atoms transition = some atoms ->
    atoms = collectTransitionAtoms transition
  minterms : ∀ transition successors,
    cache.minterms transition = some successors ->
      ClosedTransition transition ∧ (cache.atoms transition).isSome ∧
        successors.length = 2 ^ (collectTransitionAtoms transition).length ∧
        ∀ minterm regex, successors[minterm]? = some regex ->
          evaluateMinterm (collectTransitionAtoms transition) minterm
            transition = some regex

theorem CacheSound.new : CacheSound .new where
  derivatives _ _ found := by simp [SymbolicDerivativeCache.new] at found
  atoms _ _ found := by simp [SymbolicDerivativeCache.new] at found
  minterms _ _ found := by simp [SymbolicDerivativeCache.new] at found

theorem CacheSound.insertDerivative
    {cache : SymbolicDerivativeCache}
    (sound : CacheSound cache)
    {regex : Regex}
    {transition : TransitionNode}
    (derived : symbolicDerivative regex = some transition) :
    CacheSound (cache.insertDerivative regex transition) where
  derivatives other found otherFound := by
    simp only [SymbolicDerivativeCache.insertDerivative,
      Function.update_apply] at otherFound
    split_ifs at otherFound with same
    · rw [same, derived, otherFound]
    · exact sound.derivatives other found otherFound
  atoms := sound.atoms
  minterms := sound.minterms

theorem CacheSound.insertAtoms
    {cache : SymbolicDerivativeCache}
    (sound : CacheSound cache)
    (transition : TransitionNode) :
    CacheSound (cache.insertAtoms transition
      (collectTransitionAtoms transition)) where
  derivatives := sound.derivatives
  atoms other found otherFound := by
    simp only [SymbolicDerivativeCache.insertAtoms,
      Function.update_apply] at otherFound
    split_ifs at otherFound with same
    · rw [same, ← Option.some.inj otherFound]
    · exact sound.atoms other found otherFound
  minterms other successors found := by
    obtain ⟨closed, retained, table⟩ := sound.minterms other successors found
    refine ⟨closed, ?_, table⟩
    simp only [SymbolicDerivativeCache.insertAtoms, Function.update_apply]
    split_ifs
    · rfl
    · exact retained

theorem CacheSound.insertMinterms
    {cache : SymbolicDerivativeCache}
    (sound : CacheSound cache)
    {transition : TransitionNode}
    {successors : List Regex}
    (closed : ClosedTransition transition)
    (retained : (cache.atoms transition).isSome)
    (complete : successors.length =
      2 ^ (collectTransitionAtoms transition).length)
    (table : ∀ minterm regex, successors[minterm]? = some regex ->
      evaluateMinterm (collectTransitionAtoms transition) minterm
        transition = some regex) :
    CacheSound (cache.insertMinterms transition successors) where
  derivatives := sound.derivatives
  atoms := sound.atoms
  minterms other found otherFound := by
    simp only [SymbolicDerivativeCache.insertMinterms,
      Function.update_apply] at otherFound
    split_ifs at otherFound with same
    · subst same
      rw [← Option.some.inj otherFound]
      exact ⟨closed, retained, complete, table⟩
    · exact sound.minterms other found otherFound

/-- A regex whose cached derivative is the one computed without the cache. -/
def DerivesSoundly (regex : Regex) : Prop :=
  Establishes CacheSound (derivative regex) fun transition =>
    symbolicDerivative regex = some transition

theorem derivesSoundly_of_computeDerivative
    {regex : Regex}
    (computes : Establishes CacheSound (computeDerivative regex)
      fun transition => symbolicDerivative regex = some transition) :
    DerivesSoundly regex := by
  intro cache sound
  rw [derivative]
  cases found : cache.derivatives regex with
  | some transition =>
      refine ⟨(transition, cache), ?_, sound.derivatives regex transition found,
        sound⟩
      simp [found]
  | none =>
      rw [get_bind_apply, found]
      refine (computes cache sound).bindState fun transition next holds => ?_
      rw [modify_bind_apply, pure_apply]
      exact Returns.some_iff.mpr
        ⟨holds.1, holds.2.insertDerivative holds.1⟩

theorem closed_of_symbolicDerivative
    {regex : Regex}
    {transition : TransitionNode}
    (canonical : CanonicalRegex regex)
    (derived : symbolicDerivative regex = some transition) :
    ClosedTransition transition := by
  obtain ⟨other, otherEq, denotes⟩ :=
    canonical.returns_symbolicDerivative (eventAlphabet .empty)
  rw [derived, Option.some.injEq] at otherEq
  exact otherEq ▸ denotes.1

theorem establishes_factorAlternatives
    {factors : List Regex}
    (canonical : ∀ factor ∈ factors, CanonicalRegex factor)
    (derives : ∀ factor ∈ factors, DerivesSoundly factor) :
    Establishes CacheSound (factorAlternatives factors) fun alternatives =>
      symbolicAlternatives factors = some alternatives := by
  induction factors with
  | nil =>
      rw [factorAlternatives]
      exact Establishes.pure (by rw [symbolicAlternatives])
  | cons factor suffix hypothesis =>
      obtain ⟨factorCanonical, suffixCanonical⟩ :=
        List.forall_mem_cons.mp canonical
      obtain ⟨factorDerives, suffixDerives⟩ := List.forall_mem_cons.mp derives
      rw [factorAlternatives]
      refine factorDerives.bind fun transition derived => ?_
      have appends := ((closed_of_symbolicDerivative factorCanonical
        derived).returns_transitionAppend (eventAlphabet .empty)
          suffixCanonical).self
      refine (Establishes.lift appends).bind fun alternative appended => ?_
      split_ifs with nullable
      · refine (hypothesis suffixCanonical suffixDerives).bind
          fun alternatives rest => Establishes.pure ?_
        rw [symbolicAlternatives, derived]
        simp [appended, nullable, rest]
      · refine Establishes.pure ?_
        rw [symbolicAlternatives, derived]
        simp [appended, nullable]

/-- The cached derivative of a canonical regex is its derivative, and leaves
the cache sound. -/
theorem CanonicalRegex.derivesSoundly
    {regex : Regex}
    (canonical : CanonicalRegex regex) : DerivesSoundly regex := by
  induction canonical with
  | empty =>
      refine derivesSoundly_of_computeDerivative ?_
      rw [computeDerivative]
      exact Establishes.pure (by rw [symbolicDerivative])
  | all =>
      refine derivesSoundly_of_computeDerivative ?_
      rw [computeDerivative]
      exact Establishes.pure (by rw [symbolicDerivative])
  | epsilon =>
      refine derivesSoundly_of_computeDerivative ?_
      rw [computeDerivative]
      exact Establishes.pure (by rw [symbolicDerivative])
  | test testCanonical =>
      refine derivesSoundly_of_computeDerivative ?_
      have returns := (CanonicalRegex.test testCanonical
        ).returns_symbolicDerivative (eventAlphabet .empty)
      rw [computeDerivative, symbolicDerivative]
      rw [symbolicDerivative] at returns
      exact Establishes.lift returns.self
  | union sorted flat childrenCanonical hypothesis =>
      refine derivesSoundly_of_computeDerivative ?_
      rw [computeDerivative]
      refine (Establishes.mapM hypothesis).bind fun transitions related => ?_
      refine Establishes.pure ?_
      rw [symbolicDerivative, Returns.mapM_eq_some related]
      rfl
  | intersect sorted flat childrenCanonical hypothesis =>
      refine derivesSoundly_of_computeDerivative ?_
      have returns := (CanonicalRegex.intersect sorted flat childrenCanonical
        ).returns_symbolicDerivative (eventAlphabet .empty)
      rw [computeDerivative]
      refine (Establishes.mapM hypothesis).bind fun transitions related => ?_
      rw [symbolicDerivative, Returns.mapM_eq_some related] at returns ⊢
      exact Establishes.lift returns.self
  | not innerCanonical hypothesis =>
      refine derivesSoundly_of_computeDerivative ?_
      have returns := (CanonicalRegex.not innerCanonical
        ).returns_symbolicDerivative (eventAlphabet .empty)
      rw [computeDerivative]
      refine hypothesis.bind fun transition derived => ?_
      rw [symbolicDerivative, derived] at returns ⊢
      exact Establishes.lift returns.self
  | concat factorsCanonical hypothesis =>
      refine derivesSoundly_of_computeDerivative ?_
      rw [computeDerivative]
      refine (establishes_factorAlternatives factorsCanonical hypothesis).bind
        fun alternatives derived => Establishes.pure ?_
      rw [symbolicDerivative, derived]
      rfl
  | star innerCanonical hypothesis =>
      refine derivesSoundly_of_computeDerivative ?_
      have returns := innerCanonical.star.returns_symbolicDerivative
        (eventAlphabet .empty)
      rw [computeDerivative]
      refine hypothesis.bind fun transition derived => ?_
      rw [symbolicDerivative, derived] at returns ⊢
      exact Establishes.lift returns.self

/-! ## Precompilation -/

/-- Collecting atoms keeps the cache sound and retains them. -/
theorem returns_cachedAtoms
    {cache : SymbolicDerivativeCache}
    (sound : CacheSound cache)
    (transition : TransitionNode) :
    Returns (cachedAtoms transition cache) fun outcome =>
      outcome.1 = collectTransitionAtoms transition ∧
        (outcome.2.atoms transition).isSome ∧ CacheSound outcome.2 := by
  rw [cachedAtoms, get_bind_apply]
  cases found : cache.atoms transition with
  | some atoms =>
      exact Returns.some_iff.mpr
        ⟨sound.atoms transition atoms found, by simp [found], sound⟩
  | none =>
      dsimp only
      rw [modify_bind_apply, pure_apply]
      refine Returns.some_iff.mpr ⟨rfl, ?_, sound.insertAtoms transition⟩
      simp [SymbolicDerivativeCache.insertAtoms]

/-- The successors a transition is tabulated to are the ones its minterms
select. -/
theorem ClosedTransition.returns_table
    {transition : TransitionNode}
    (closed : ClosedTransition transition) :
    Returns
      ((List.range (1 <<< (collectTransitionAtoms transition).length)).mapM
        fun minterm => evaluateMinterm (collectTransitionAtoms transition)
          minterm transition)
      fun successors =>
        successors.length = 2 ^ (collectTransitionAtoms transition).length ∧
          (∀ regex ∈ successors, CanonicalRegex regex) ∧
          ∀ minterm regex, successors[minterm]? = some regex ->
            evaluateMinterm (collectTransitionAtoms transition) minterm
              transition = some regex := by
  have evaluates : ∀ minterm, Returns
      (evaluateMinterm (collectTransitionAtoms transition) minterm transition)
      fun regex => CanonicalRegex regex ∧
        evaluateMinterm (collectTransitionAtoms transition) minterm
          transition = some regex := by
    intro minterm
    obtain ⟨holds, assigns⟩ :=
      exists_assigns (nodup_collectTransitionAtoms transition) minterm
    have evaluated := closed.evaluateMinterm_eq assigns
      fun atom member => mem_collectTransitionAtoms.mpr member
    exact ⟨_, evaluated, closed.canonical_interpret holds, evaluated⟩
  refine (Returns.mapM fun minterm _ => evaluates minterm).imp
    fun successors related => ?_
  have lengthEq := related.length_eq
  rw [List.length_range, Nat.one_shiftLeft] at lengthEq
  refine ⟨lengthEq.symm, forall_mem_of_forall₂ related fun _ _ holds => holds.1,
    ?_⟩
  intro minterm regex found
  obtain ⟨inRange, rfl⟩ := List.getElem?_eq_some_iff.mp found
  have pointwise := (List.forall₂_iff_get.mp related).2 minterm
    (by simpa [Nat.one_shiftLeft, lengthEq] using inRange) inRange
  simpa using pointwise.2

/-- Tabulation keeps the cache sound and yields canonical successors. -/
theorem ClosedTransition.establishes_tabulate
    {transition : TransitionNode}
    (closed : ClosedTransition transition)
    (compiledMinterms : Nat) :
    Establishes CacheSound (tabulate transition compiledMinterms)
      fun tabulated => ∀ successors added,
        tabulated = some (successors, added) ->
          ∀ regex ∈ successors, CanonicalRegex regex := by
  intro cache sound
  rw [tabulate, get_bind_apply]
  cases found : cache.minterms transition with
  | some successors =>
      refine Returns.some_iff.mpr ⟨?_, sound⟩
      intro tabulated added tabulatedEq regex member
      obtain ⟨rfl, _⟩ := Prod.mk.inj (Option.some.inj tabulatedEq)
      obtain ⟨_, _, _, table⟩ := sound.minterms transition successors found
      obtain ⟨minterm, inRange, rfl⟩ := List.getElem_of_mem member
      obtain ⟨holds, assigns⟩ :=
        exists_assigns (nodup_collectTransitionAtoms transition) minterm
      have evaluated := closed.evaluateMinterm_eq assigns
        fun atom member => mem_collectTransitionAtoms.mpr member
      rw [table minterm _ (List.getElem?_eq_getElem inRange),
        Option.some.injEq] at evaluated
      rw [evaluated]
      exact closed.canonical_interpret holds
  | none =>
      refine (returns_cachedAtoms sound transition).bindState
        fun atoms next holds => ?_
      obtain ⟨atomsEq, retained, nextSound⟩ := holds
      dsimp only at atomsEq retained nextSound
      subst atomsEq
      dsimp only
      split_ifs
      · exact Returns.some_iff.mpr ⟨by simp, nextSound⟩
      · exact Returns.some_iff.mpr ⟨by simp, nextSound⟩
      · refine (closed.returns_table.liftState next).bindState
          fun successors between tableHolds => ?_
        obtain ⟨⟨complete, canonical, table⟩, rfl⟩ := tableHolds
        rw [modify_bind_apply, pure_apply]
        refine Returns.some_iff.mpr ⟨?_,
          nextSound.insertMinterms closed retained complete table⟩
        intro tabulated added tabulatedEq
        obtain ⟨rfl, _⟩ := Prod.mk.inj (Option.some.inj tabulatedEq)
        exact canonical

/-- Precompilation ends and keeps the cache sound. -/
theorem establishes_precompileFrom
    {pending seen : List Regex}
    (compiledMinterms : Nat)
    (canonical : ∀ regex ∈ pending, CanonicalRegex regex) :
    Establishes CacheSound (precompileFrom pending seen compiledMinterms)
      fun _ => True := by
  -- Each step either adds a state, up to the budget, or shortens the queue.
  induction budget : maxPrecompiledStates - seen.length
    using Nat.strong_induction_on
    generalizing pending seen compiledMinterms with
  | _ budget newState =>
      subst budget
      induction pending generalizing compiledMinterms with
      | nil =>
          unfold precompileFrom
          split_ifs
          · exact Establishes.pure trivial
          · exact Establishes.pure trivial
      | cons regex pending shorterQueue =>
          obtain ⟨regexCanonical, pendingCanonical⟩ :=
            List.forall_mem_cons.mp canonical
          unfold precompileFrom
          dsimp only
          split_ifs with withinBudget alreadySeen
          · exact shorterQueue compiledMinterms pendingCanonical
          · have continues : ∀ (queue : List Regex) (compiled : Nat),
                (∀ regex ∈ queue, CanonicalRegex regex) ->
                  Establishes CacheSound
                    (precompileFrom queue (regex :: seen) compiled)
                    fun _ => True := by
              intro queue compiled queueCanonical
              refine newState _ ?_ compiled queueCanonical rfl
              rw [List.length_cons]
              omega
            refine regexCanonical.derivesSoundly.bind
              fun transition derived => ?_
            have closed := closed_of_symbolicDerivative regexCanonical derived
            split
            · exact continues pending compiledMinterms pendingCanonical
            · refine (closed.establishes_tabulate compiledMinterms).bind
                fun tabulated successorsCanonical => ?_
              split
              · exact continues pending compiledMinterms pendingCanonical
              · rename_i successors added
                refine continues _ _ (List.forall_mem_append.mpr
                  ⟨pendingCanonical, ?_⟩)
                exact successorsCanonical successors added rfl
          · exact Establishes.pure trivial

/-- Precompilation of a canonical root ends and keeps the cache sound. -/
theorem CanonicalRegex.establishes_precompile
    {root : Regex}
    (canonical : CanonicalRegex root) :
    Establishes CacheSound (precompile root) fun _ => True :=
  establishes_precompileFrom 0 (by simpa using canonical)

/-! ## Steps of the matcher -/

/-- Everything the matcher remembers is what evaluation would select. -/
structure MatcherSound
    (substitution : CandidateSubstitution)
    (matcher : SymbolicMatcher) : Prop where
  cache : CacheSound matcher.derivatives
  values : ∀ transition assignment regex,
    matcher.instances.values (transition, assignment) = some regex ->
      ∀ event, (collectTransitionAtoms transition).map
        (·.matchesEvent substitution event) = assignment ->
          evaluate substitution event transition = regex
  last : ∀ transition event regex,
    matcher.instances.last = some (transition, event, regex) ->
      evaluate substitution event transition = regex

theorem MatcherSound.start
    (substitution : CandidateSubstitution)
    {cache : SymbolicDerivativeCache}
    (sound : CacheSound cache) :
    MatcherSound substitution { derivatives := cache, instances := .new } where
  cache := sound
  values _ _ _ found := by simp [InstantiationCache.new] at found
  last _ _ _ found := by simp [InstantiationCache.new] at found

theorem MatcherSound.withCache
    {substitution : CandidateSubstitution}
    {matcher : SymbolicMatcher}
    (sound : MatcherSound substitution matcher)
    {cache : SymbolicDerivativeCache}
    (cacheSound : CacheSound cache) :
    MatcherSound substitution { matcher with derivatives := cache } where
  cache := cacheSound
  values := sound.values
  last := sound.last

theorem MatcherSound.remember
    {substitution : CandidateSubstitution}
    {matcher : SymbolicMatcher}
    (sound : MatcherSound substitution matcher)
    {transition : TransitionNode}
    {event : Event}
    {regex : Regex}
    (evaluated : evaluate substitution event transition = regex) :
    MatcherSound substitution (matcher.remember transition event regex) where
  cache := sound.cache
  values := sound.values
  last other otherEvent otherRegex found := by
    simp only [SymbolicMatcher.remember, Option.some.injEq,
      Prod.mk.injEq] at found
    obtain ⟨rfl, rfl, rfl⟩ := found
    exact evaluated

theorem MatcherSound.insertValue
    {substitution : CandidateSubstitution}
    {matcher : SymbolicMatcher}
    (sound : MatcherSound substitution matcher)
    {transition : TransitionNode}
    (closed : ClosedTransition transition)
    (event : Event) :
    MatcherSound substitution (matcher.insertValue transition
      ((collectTransitionAtoms transition).map
        (·.matchesEvent substitution event))
      (evaluate substitution event transition)) where
  cache := sound.cache
  values other assignment regex found otherEvent assigned := by
    simp only [SymbolicMatcher.insertValue, Function.update_apply,
      Prod.mk.injEq] at found
    split_ifs at found with same
    · obtain ⟨rfl, rfl⟩ := same
      rw [← Option.some.inj found, closed.evaluate_eq_interpret,
        closed.evaluate_eq_interpret]
      exact closed.interpret_congr assigned
    · exact sound.values other assignment regex found otherEvent assigned
  last := sound.last

theorem establishes_onCache
    {substitution : CandidateSubstitution}
    {Value : Type}
    {program : StateT SymbolicDerivativeCache Option Value}
    {post : Value -> Prop}
    (establishes : Establishes CacheSound program post) :
    Establishes (MatcherSound substitution)
      (SymbolicMatcher.onCache program) post := by
  intro matcher sound
  refine (establishes matcher.derivatives sound.cache).bind
    fun outcome holds => ?_
  exact Returns.some_iff.mpr ⟨holds.1, sound.withCache holds.2⟩

/-- Selecting a successor agrees with evaluating every guard. -/
theorem ClosedTransition.establishes_select
    (substitution : CandidateSubstitution)
    (event : Event)
    {transition : TransitionNode}
    (closed : ClosedTransition transition) :
    Establishes (MatcherSound substitution)
      (SymbolicMatcher.select transition substitution event)
      fun regex => evaluate substitution event transition = regex := by
  intro matcher sound
  rw [SymbolicMatcher.select, get_bind_apply]
  cases found : matcher.derivatives.minterms transition with
  | some successors =>
      obtain ⟨_, retained, complete, table⟩ :=
        sound.cache.minterms transition successors found
      obtain ⟨atoms, atomsEq⟩ := Option.isSome_iff_exists.mp retained
      have collected := sound.cache.atoms transition atoms atomsEq
      subst collected
      dsimp only
      rw [get_bind_apply]
      have listed : Returns (matcher.derivatives.atoms transition)
          fun atoms => atoms = collectTransitionAtoms transition :=
        .of_eq_some atomsEq rfl
      refine (listed.liftState matcher).bindState fun atoms next holds => ?_
      obtain ⟨rfl, rfl⟩ := holds
      have inRange : mintermOf (·.matchesEvent substitution event)
          (collectTransitionAtoms transition) < successors.length := by
        rw [complete]
        exact mintermOf_lt _ _
      have looked : Returns
          (successors[mintermOf (·.matchesEvent substitution event)
            (collectTransitionAtoms transition)]?)
          fun regex => evaluate substitution event transition = regex := by
        refine .of_eq_some (List.getElem?_eq_getElem inRange) ?_
        have selected := table _ _ (List.getElem?_eq_getElem inRange)
        rw [closed.evaluateMinterm_eq (assigns_mintermOf _ _)
          (fun atom member => mem_collectTransitionAtoms.mpr member),
          Option.some.injEq] at selected
        rw [closed.evaluate_eq_interpret, selected]
      refine (looked.liftState next).imp fun outcome holds => ?_
      exact ⟨holds.1, holds.2 ▸ sound⟩
  | none =>
      have collects : Returns
          (SymbolicMatcher.onCache (cachedAtoms transition) matcher)
          fun outcome => outcome.1 = collectTransitionAtoms transition ∧
            MatcherSound substitution outcome.2 :=
        (returns_cachedAtoms sound.cache transition).bind
          fun outcome holds => Returns.some_iff.mpr
            ⟨holds.1, sound.withCache holds.2.2⟩
      refine collects.bindState fun atoms next holds => ?_
      obtain ⟨atomsEq, nextSound⟩ := holds
      dsimp only at atomsEq nextSound
      subst atomsEq
      dsimp only
      rw [get_bind_apply]
      cases valueFound : next.instances.values (transition,
          (collectTransitionAtoms transition).map
            (·.matchesEvent substitution event)) with
      | some regex =>
          exact Returns.some_iff.mpr
            ⟨nextSound.values transition _ regex valueFound event rfl, nextSound⟩
      | none =>
          dsimp only
          rw [modify_bind_apply, pure_apply]
          exact Returns.some_iff.mpr ⟨rfl, nextSound.insertValue closed event⟩

/-- Instantiating a transition agrees with evaluating every guard. -/
theorem ClosedTransition.establishes_instantiate
    (substitution : CandidateSubstitution)
    (event : Event)
    {transition : TransitionNode}
    (closed : ClosedTransition transition) :
    Establishes (MatcherSound substitution)
      (SymbolicMatcher.instantiate transition substitution event)
      fun regex => evaluate substitution event transition = regex := by
  have selectsAndRemembers : Establishes (MatcherSound substitution)
      (do
        let regex ← SymbolicMatcher.select transition substitution event
        modify (·.remember transition event regex)
        pure regex)
      fun regex => evaluate substitution event transition = regex := by
    intro matcher sound
    refine (closed.establishes_select substitution event matcher
      sound).bindState fun regex next holds => ?_
    rw [modify_bind_apply, pure_apply]
    exact Returns.some_iff.mpr ⟨holds.1, holds.2.remember holds.1⟩
  unfold SymbolicMatcher.instantiate
  split
  · exact Establishes.pure (by rw [evaluate])
  · intro matcher sound
    rw [get_bind_apply]
    cases lastEq : matcher.instances.last with
    | none => exact selectsAndRemembers matcher sound
    | some last =>
        obtain ⟨previousTransition, previousEvent, regex⟩ := last
        dsimp only
        split_ifs with same
        · refine Returns.some_iff.mpr ⟨?_, sound⟩
          rw [← same.1, ← same.2]
          exact sound.last _ _ _ lastEq
        · exact selectsAndRemembers matcher sound

/-! ## Histories -/

theorem establishes_stateDerivative
    (substitution : CandidateSubstitution)
    {state : Regex}
    {previous : Option (Regex × TransitionNode)}
    (canonical : CanonicalRegex state)
    (previousDerived : ∀ regex transition, previous = some (regex, transition) ->
      symbolicDerivative regex = some transition) :
    Establishes (MatcherSound substitution)
      (SymbolicMatcher.stateDerivative state previous)
      fun transition => symbolicDerivative state = some transition := by
  unfold SymbolicMatcher.stateDerivative
  split
  · split_ifs with same
    · exact Establishes.pure (previousDerived state _ (by rw [same]))
    · exact establishes_onCache canonical.derivesSoundly
  · exact establishes_onCache canonical.derivesSoundly

/-- From a canonical state, the matcher accepts exactly the histories of its
language. -/
theorem establishes_acceptsFrom
    (substitution : CandidateSubstitution)
    (history : List Event)
    {state : Regex}
    {previous : Option (Regex × TransitionNode)}
    (canonical : CanonicalRegex state)
    (previousDerived : ∀ regex transition, previous = some (regex, transition) ->
      symbolicDerivative regex = some transition) :
    Establishes (MatcherSound substitution)
      (SymbolicMatcher.acceptsFrom substitution history state previous)
      fun accepted => accepted = true ↔
        history ∈ (eventAlphabet substitution).language state := by
  induction history generalizing state previous with
  | nil =>
      rw [SymbolicMatcher.acceptsFrom]
      exact Establishes.pure ((eventAlphabet substitution).nullable_iff state)
  | cons event history hypothesis =>
      rw [SymbolicMatcher.acceptsFrom]
      split_ifs with settled
      · refine Establishes.pure ?_
        rcases settled with rfl | rfl
        · simp [ExtendedRegex.nullable]
        · simp [ExtendedRegex.nullable]
      · refine (establishes_stateDerivative substitution canonical
          previousDerived).bind fun transition derived => ?_
        have closed := closed_of_symbolicDerivative canonical derived
        refine (closed.establishes_instantiate substitution event).bind
          fun next selected => ?_
        obtain ⟨nextCanonical, nextLanguage⟩ :=
          closed.evaluate_correct substitution event
        rw [selected] at nextCanonical nextLanguage
        refine (hypothesis nextCanonical ?_).imp fun accepted holds => ?_
        · rintro regex other ⟨⟩
          exact derived
        · obtain ⟨other, otherEq, denotes⟩ :=
            canonical.returns_symbolicDerivative (eventAlphabet substitution)
          rw [derived, Option.some.injEq] at otherEq
          subst otherEq
          rw [holds, nextLanguage, denotes.2 event, Language.mem_residual]

/-- The matcher accepts exactly the histories of its canonical root, whatever
its cache holds. -/
theorem CanonicalRegex.establishes_accepts
    {root : Regex}
    (canonical : CanonicalRegex root)
    (history : List Event)
    (substitution : CandidateSubstitution) :
    Establishes CacheSound (accepts root history substitution)
      fun accepted => accepted = true ↔
        history ∈ (eventAlphabet substitution).language root := by
  intro cache sound
  have noPrevious : ∀ regex transition,
      (none : Option (Regex × TransitionNode)) = some (regex, transition) ->
        symbolicDerivative regex = some transition := by
    simp
  have matched := establishes_acceptsFrom substitution history canonical
    noPrevious _ (MatcherSound.start substitution sound)
  exact matched.bind fun outcome holds => Returns.some_iff.mpr
    ⟨holds.1, holds.2.cache⟩

end Order

end Validator
end Marsh
