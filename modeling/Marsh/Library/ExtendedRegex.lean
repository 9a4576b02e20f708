import Marsh.Library.Language

/-!
# Extended regular expressions over symbolic letters

Regular expressions with finitary union, concatenation and intersection, star
and complement, whose one-letter expressions are tests rather than letters.
The language of an expression depends on which letters each test accepts.
-/

namespace Library

/-- An extended regular expression over the tests `Test`. -/
inductive ExtendedRegex (Test : Type)
  | empty
  | all
  | epsilon
  | test (value : Test)
  | union (children : List (ExtendedRegex Test))
  | concat (factors : List (ExtendedRegex Test))
  | star (inner : ExtendedRegex Test)
  | intersect (children : List (ExtendedRegex Test))
  | not (inner : ExtendedRegex Test)

namespace ExtendedRegex

variable {Test : Type} {Letter : Type*}

/-- Structural induction with one hypothesis for each listed child. -/
@[elab_as_elim, induction_eliminator]
theorem induction
    {motive : ExtendedRegex Test -> Prop}
    (empty : motive .empty)
    (all : motive .all)
    (epsilon : motive .epsilon)
    (test : ∀ value, motive (.test value))
    (union : ∀ children, (∀ child ∈ children, motive child) ->
      motive (.union children))
    (concat : ∀ factors, (∀ factor ∈ factors, motive factor) ->
      motive (.concat factors))
    (star : ∀ inner, motive inner -> motive (.star inner))
    (intersect : ∀ children, (∀ child ∈ children, motive child) ->
      motive (.intersect children))
    (not : ∀ inner, motive inner -> motive (.not inner))
    (regex : ExtendedRegex Test) : motive regex :=
  @ExtendedRegex.rec Test motive
    (fun children => ∀ child ∈ children, motive child)
    empty all epsilon test union concat star intersect not (by simp)
    (fun _ _ headCase tailCase => by
      simpa only [List.mem_cons, forall_eq_or_imp] using ⟨headCase, tailCase⟩)
    regex

/-! ## Languages -/

mutual

/-- The language of an expression, given the letters each test accepts. -/
def language (accepts : Test -> Letter -> Prop) :
    ExtendedRegex Test -> Language Letter
  | .empty => 0
  | .all => ⊤
  | .epsilon => 1
  | .test value => Language.single (accepts value)
  | .union children => unionLanguage accepts children
  | .concat factors => concatLanguage accepts factors
  | .star inner => KStar.kstar (inner.language accepts)
  | .intersect children => intersectLanguage accepts children
  | .not inner => (inner.language accepts)ᶜ

/-- The union of the listed languages. -/
def unionLanguage (accepts : Test -> Letter -> Prop) :
    List (ExtendedRegex Test) -> Language Letter
  | [] => 0
  | child :: children => child.language accepts + unionLanguage accepts children

/-- The product of the listed languages, in order. -/
def concatLanguage (accepts : Test -> Letter -> Prop) :
    List (ExtendedRegex Test) -> Language Letter
  | [] => 1
  | factor :: factors =>
      factor.language accepts * concatLanguage accepts factors

/-- The intersection of the listed languages. -/
def intersectLanguage (accepts : Test -> Letter -> Prop) :
    List (ExtendedRegex Test) -> Language Letter
  | [] => ⊤
  | child :: children =>
      child.language accepts ⊓ intersectLanguage accepts children

end

variable (accepts : Test -> Letter -> Prop)

@[simp] theorem language_empty :
    (empty : ExtendedRegex Test).language accepts = 0 :=
  rfl

@[simp] theorem language_all :
    (all : ExtendedRegex Test).language accepts = ⊤ :=
  rfl

@[simp] theorem language_epsilon :
    (epsilon : ExtendedRegex Test).language accepts = 1 :=
  rfl

@[simp] theorem language_test (value : Test) :
    (test value).language accepts = Language.single (accepts value) :=
  rfl

@[simp] theorem language_union (children : List (ExtendedRegex Test)) :
    (union children).language accepts =
      (children.map (language accepts)).sum := by
  induction children with
  | nil => rfl
  | cons child children hypothesis =>
      exact congrArg (child.language accepts + ·) hypothesis

@[simp] theorem language_concat (factors : List (ExtendedRegex Test)) :
    (concat factors).language accepts =
      (factors.map (language accepts)).prod := by
  induction factors with
  | nil => rfl
  | cons factor factors hypothesis =>
      exact congrArg (factor.language accepts * ·) hypothesis

@[simp] theorem language_star (inner : ExtendedRegex Test) :
    (star inner).language accepts = KStar.kstar (inner.language accepts) :=
  rfl

theorem intersectLanguage_eq_inter (children : List (ExtendedRegex Test)) :
    intersectLanguage accepts children =
      Language.inter (children.map (language accepts)) := by
  induction children with
  | nil => exact Language.inter_nil.symm
  | cons child children hypothesis =>
      rw [List.map_cons, Language.inter_cons, ← hypothesis]
      rfl

@[simp] theorem language_intersect (children : List (ExtendedRegex Test)) :
    (intersect children).language accepts =
      Language.inter (children.map (language accepts)) :=
  intersectLanguage_eq_inter accepts children

@[simp] theorem language_not (inner : ExtendedRegex Test) :
    (not inner).language accepts = (inner.language accepts)ᶜ :=
  rfl

theorem mem_language_union
    {children : List (ExtendedRegex Test)}
    {word : List Letter} :
    word ∈ (union children).language accepts ↔
      ∃ child ∈ children, word ∈ child.language accepts := by
  simp [Language.mem_sum]

theorem mem_language_intersect
    {children : List (ExtendedRegex Test)}
    {word : List Letter} :
    word ∈ (intersect children).language accepts ↔
      ∀ child ∈ children, word ∈ child.language accepts := by
  simp

/-! ## Nullability -/

mutual

/-- Whether the empty word belongs to the language. -/
def nullable : ExtendedRegex Test -> Bool
  | .empty => false
  | .all => true
  | .epsilon => true
  | .test _ => false
  | .union children => anyNullable children
  | .concat factors => allNullable factors
  | .star _ => true
  | .intersect children => allNullable children
  | .not inner => !inner.nullable

/-- Some listed expression is nullable. -/
def anyNullable : List (ExtendedRegex Test) -> Bool
  | [] => false
  | child :: children => child.nullable || anyNullable children

/-- Every listed expression is nullable. -/
def allNullable : List (ExtendedRegex Test) -> Bool
  | [] => true
  | child :: children => child.nullable && allNullable children

end

theorem anyNullable_eq_any (children : List (ExtendedRegex Test)) :
    anyNullable children = children.any nullable := by
  induction children with
  | nil => rfl
  | cons child children hypothesis =>
      exact congrArg (child.nullable || ·) hypothesis

theorem allNullable_eq_all (children : List (ExtendedRegex Test)) :
    allNullable children = children.all nullable := by
  induction children with
  | nil => rfl
  | cons child children hypothesis =>
      exact congrArg (child.nullable && ·) hypothesis

theorem nullable_iff (regex : ExtendedRegex Test) :
    regex.nullable = true ↔ [] ∈ regex.language accepts := by
  induction regex with
  | empty => simp [nullable]
  | all => simp [nullable]
  | epsilon => simp [nullable]
  | test value => simp [nullable]
  | union children hypothesis =>
      rw [nullable, anyNullable_eq_any, mem_language_union, List.any_eq_true]
      exact exists_congr fun child => and_congr_right (hypothesis child)
  | concat factors hypothesis =>
      rw [nullable, allNullable_eq_all, List.all_eq_true, language_concat,
        Language.nil_mem_prod, List.forall_mem_map]
      exact forall₂_congr hypothesis
  | star inner _ => simp [nullable, Language.nil_mem_kstar]
  | intersect children hypothesis =>
      rw [nullable, allNullable_eq_all, List.all_eq_true,
        mem_language_intersect]
      exact forall₂_congr hypothesis
  | not inner hypothesis =>
      rw [nullable, language_not, Language.mem_compl_iff, ← hypothesis]
      simp

mutual

/-- Number of constructors of an expression. -/
def size : ExtendedRegex Test -> Nat
  | .empty => 1
  | .all => 1
  | .epsilon => 1
  | .test _ => 1
  | .union children => sizeAll children + 1
  | .concat factors => sizeAll factors + 1
  | .star inner => inner.size + 1
  | .intersect children => sizeAll children + 1
  | .not inner => inner.size + 1

/-- Total size of the listed expressions. -/
def sizeAll : List (ExtendedRegex Test) -> Nat
  | [] => 0
  | child :: children => child.size + sizeAll children

end

theorem sizeAll_eq_sum (children : List (ExtendedRegex Test)) :
    sizeAll children = (children.map size).sum := by
  induction children with
  | nil => rfl
  | cons child children hypothesis =>
      exact congrArg (child.size + ·) hypothesis

theorem size_pos (regex : ExtendedRegex Test) : 0 < regex.size := by
  cases regex <;> exact Nat.succ_pos _

end ExtendedRegex

end Library
