import Mathlib.Algebra.GroupWithZero.Nat
import Mathlib.Data.List.Basic

/-!
# Boolean tests over atoms

Finite conjunctions and disjunctions of atoms, evaluated under an assignment
of truth values to the atoms.  Negation is not a constructor: an atom type is
expected to be closed under complement, and normalizers push negation to the
atoms.
-/

namespace Library

/-- A test built from atoms by finitary conjunction and disjunction. -/
inductive BooleanTest (Atom : Type)
  | tt
  | ff
  | atom (value : Atom)
  | and (children : List (BooleanTest Atom))
  | or (children : List (BooleanTest Atom))

namespace BooleanTest

variable {Atom : Type}

/-- Structural induction with one hypothesis for each listed child. -/
@[elab_as_elim, induction_eliminator]
theorem induction
    {motive : BooleanTest Atom -> Prop}
    (tt : motive .tt)
    (ff : motive .ff)
    (atom : ∀ value, motive (.atom value))
    (and : ∀ children, (∀ child ∈ children, motive child) ->
      motive (.and children))
    (or : ∀ children, (∀ child ∈ children, motive child) ->
      motive (.or children))
    (test : BooleanTest Atom) : motive test :=
  @BooleanTest.rec Atom motive
    (fun children => ∀ child ∈ children, motive child)
    tt ff atom and or (by simp)
    (fun _ _ headCase tailCase => by
      simpa only [List.mem_cons, forall_eq_or_imp] using ⟨headCase, tailCase⟩)
    test

mutual

/-- Truth of a test under an assignment of its atoms. -/
def eval (truth : Atom -> Bool) : BooleanTest Atom -> Bool
  | .tt => true
  | .ff => false
  | .atom value => truth value
  | .and children => evalAll truth children
  | .or children => evalAny truth children

/-- Every listed test holds. -/
def evalAll (truth : Atom -> Bool) : List (BooleanTest Atom) -> Bool
  | [] => true
  | child :: children => child.eval truth && evalAll truth children

/-- Some listed test holds. -/
def evalAny (truth : Atom -> Bool) : List (BooleanTest Atom) -> Bool
  | [] => false
  | child :: children => child.eval truth || evalAny truth children

end

theorem evalAll_eq_all
    (truth : Atom -> Bool)
    (children : List (BooleanTest Atom)) :
    evalAll truth children = children.all (eval truth) := by
  induction children with
  | nil => rfl
  | cons child children hypothesis =>
      exact congrArg (child.eval truth && ·) hypothesis

theorem evalAny_eq_any
    (truth : Atom -> Bool)
    (children : List (BooleanTest Atom)) :
    evalAny truth children = children.any (eval truth) := by
  induction children with
  | nil => rfl
  | cons child children hypothesis =>
      exact congrArg (child.eval truth || ·) hypothesis

@[simp] theorem eval_tt (truth : Atom -> Bool) :
    (tt : BooleanTest Atom).eval truth = true :=
  rfl

@[simp] theorem eval_ff (truth : Atom -> Bool) :
    (ff : BooleanTest Atom).eval truth = false :=
  rfl

@[simp] theorem eval_atom (truth : Atom -> Bool) (value : Atom) :
    (atom value).eval truth = truth value :=
  rfl

@[simp] theorem eval_and
    (truth : Atom -> Bool)
    (children : List (BooleanTest Atom)) :
    (and children).eval truth = children.all (eval truth) :=
  evalAll_eq_all truth children

@[simp] theorem eval_or
    (truth : Atom -> Bool)
    (children : List (BooleanTest Atom)) :
    (or children).eval truth = children.any (eval truth) :=
  evalAny_eq_any truth children

mutual

/-- Nesting depth of the connectives of a test. -/
def depth : BooleanTest Atom -> Nat
  | .tt => 0
  | .ff => 0
  | .atom _ => 0
  | .and children => depthAll children + 1
  | .or children => depthAll children + 1

/-- The largest depth of a listed test. -/
def depthAll : List (BooleanTest Atom) -> Nat
  | [] => 0
  | child :: children => max child.depth (depthAll children)

end

theorem depthAll_le_iff
    {bound : Nat}
    {children : List (BooleanTest Atom)} :
    depthAll children ≤ bound ↔ ∀ child ∈ children, child.depth ≤ bound := by
  induction children with
  | nil => exact iff_of_true (Nat.zero_le bound) (by simp)
  | cons child children hypothesis =>
      rw [List.forall_mem_cons, ← hypothesis]
      exact Nat.max_le

theorem depth_and_le_iff
    {bound : Nat}
    {children : List (BooleanTest Atom)} :
    (and children).depth ≤ bound + 1 ↔
      ∀ child ∈ children, child.depth ≤ bound :=
  Nat.add_le_add_iff_right.trans depthAll_le_iff

theorem depth_or_le_iff
    {bound : Nat}
    {children : List (BooleanTest Atom)} :
    (or children).depth ≤ bound + 1 ↔
      ∀ child ∈ children, child.depth ≤ bound :=
  Nat.add_le_add_iff_right.trans depthAll_le_iff

mutual

/-- Number of constructors of a test. -/
def size : BooleanTest Atom -> Nat
  | .tt => 1
  | .ff => 1
  | .atom _ => 1
  | .and children => sizeAll children + 1
  | .or children => sizeAll children + 1

/-- Total size of the listed tests. -/
def sizeAll : List (BooleanTest Atom) -> Nat
  | [] => 0
  | child :: children => child.size + sizeAll children

end

theorem sizeAll_eq_sum (children : List (BooleanTest Atom)) :
    sizeAll children = (children.map size).sum := by
  induction children with
  | nil => rfl
  | cons child children hypothesis =>
      exact congrArg (child.size + ·) hypothesis

theorem size_pos (test : BooleanTest Atom) : 0 < test.size := by
  cases test <;> exact Nat.succ_pos _

end BooleanTest

end Library
