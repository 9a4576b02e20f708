import Marsh.Library.SegmentWalk
import Marsh.Library.Text

/-!
# Directories of jobs

The directory a job works in is typed against another job's and normalized
below the seed.  It is refused as soon as it climbs out, even if it would come
back.
-/

namespace Marsh
namespace Shellmux

open Library

/-! ## The join and the normalization -/

/-- `job_dir`: the directory typed at `sd` or `bg`, against the job it was typed
in. -/
def jobDir (base dir : Text) : Text :=
  if base.isEmpty || dir.head? = some '/' then dir else base ++ '/' :: dir

/-- What `seed_relative` does with one component. -/
def seedComponent
    (segments : List Text)
    (component : Text) : Option (List Text) :=
  if component = "".toList || component = ".".toList then some segments
  else if component = "..".toList then
    if segments.isEmpty then none else some segments.dropLast
  else some (segments ++ [component])

/-- Segments with slashes between them. -/
def joinSegments (segments : List Text) : Text :=
  ['/'].intercalate segments

/-- `seed_relative`: a seed-relative directory normalized, or `none` when it
escapes the seed. -/
def seedRelative (dir : Text) : Option Text :=
  ((dir.splitOn '/').foldlM seedComponent []).map joinSegments

/-! ## What a directory means -/

/-- What a component of a path asks for. -/
def segmentOf (component : Text) : Segment Text :=
  if component = [] ∨ component = ['.'] then .stay
  else if component = ['.', '.'] then .up
  else .down component

/-- The segments of a path. -/
def typedSegments (dir : Text) : List (Segment Text) :=
  (dir.splitOn '/').map segmentOf

/-- The way from the seed's root to a directory typed at a job: a leading slash
names the root, and anything else hangs below the job's directory. -/
def segmentsFrom (base dir : Text) : List (Segment Text) :=
  (if dir.head? = some '/' then [] else typedSegments base) ++ typedSegments dir

/-- A directory without an empty, a dot or a dot-dot segment. -/
def Normalized (dir : Text) : Prop :=
  dir = [] ∨ ∀ component ∈ dir.splitOn '/',
    component ≠ [] ∧ component ≠ ['.'] ∧ component ≠ ['.', '.']

/-! ## The two agree -/

theorem seedComponent_eq (place : List Text) (component : Text) :
    seedComponent place component = (segmentOf component).move place := by
  have texts : "".toList = ([] : Text) ∧ ".".toList = ['.'] ∧
      "..".toList = ['.', '.'] := by decide
  rw [seedComponent, segmentOf, texts.1, texts.2.1, texts.2.2]
  by_cases stays : component = [] ∨ component = ['.']
  · rw [if_pos (by simpa using stays), if_pos stays]
    rfl
  · rw [if_neg (by simpa using stays), if_neg stays]
    by_cases ups : component = ['.', '.']
    · rw [if_pos ups, if_pos ups]
      rfl
    · rw [if_neg ups, if_neg ups]
      rfl

theorem foldlM_seedComponent (place components : List Text) :
    components.foldlM seedComponent place =
      Segment.walk place (components.map segmentOf) := by
  induction components generalizing place with
  | nil => rfl
  | cons component components hypothesis =>
      rw [List.foldlM_cons, List.map_cons, Segment.walk_cons, seedComponent_eq]
      exact congrArg _ (funext hypothesis)

/-- Normalizing is walking the path from the seed's root. -/
theorem seedRelative_eq (dir : Text) :
    seedRelative dir = (Segment.walk [] (typedSegments dir)).map joinSegments := by
  rw [seedRelative, foldlM_seedComponent, typedSegments]

theorem typedSegments_nil : typedSegments [] = [.stay] := rfl

theorem typedSegments_join (base dir : Text) :
    typedSegments (base ++ '/' :: dir) = typedSegments base ++ typedSegments dir := by
  rw [typedSegments, List.splitOn_append_cons_self, List.map_append, typedSegments,
    typedSegments]

/-- The path of a joined directory leads where the typed one does from the
job's. -/
theorem walk_jobDir (base dir : Text) :
    Segment.walk [] (typedSegments (jobDir base dir)) =
      Segment.walk [] (segmentsFrom base dir) := by
  rw [jobDir, segmentsFrom]
  by_cases absolute : dir.head? = some '/'
  · rw [if_pos (by simp [absolute]), if_pos absolute, List.nil_append]
  · rw [if_neg absolute]
    by_cases root : base = []
    · rw [root, if_pos (by rfl), typedSegments_nil]
      rfl
    · rw [if_neg (by simp [absolute, root]), typedSegments_join]

/-! ## Normalized directories -/

/-- What a path leads down to is the component itself. -/
theorem segmentOf_eq_down
    {component name : Text}
    (leads : segmentOf component = .down name) :
    component = name ∧ component ≠ [] ∧ component ≠ ['.'] ∧
      component ≠ ['.', '.'] := by
  rw [segmentOf] at leads
  split_ifs at leads with stays ups
  rw [not_or] at stays
  exact ⟨Segment.down.inj leads, stays.1, stays.2, ups⟩

theorem segmentOf_of_name
    {component : Text}
    (name : component ≠ [] ∧ component ≠ ['.'] ∧ component ≠ ['.', '.']) :
    segmentOf component = .down component := by
  rw [segmentOf, if_neg (not_or.mpr ⟨name.1, name.2.1⟩), if_neg name.2.2]

/-- No piece of a cut text has what it was cut at. -/
theorem notMem_of_mem_splitOn
    {char : Char}
    {text piece : Text}
    (member : piece ∈ text.splitOn char) : char ∉ piece := by
  induction text generalizing piece with
  | nil =>
      rw [List.mem_singleton.mp member]
      exact List.not_mem_nil
  | cons first text hypothesis =>
      rw [List.splitOn_cons_eq_if_modifyHead] at member
      split_ifs at member with cut
      · rcases List.mem_cons.mp member with rfl | later
        · exact List.not_mem_nil
        · exact hypothesis later
      · have other : char ≠ first := fun same => cut (by simp [same])
        cases pieces : text.splitOn char with
        | nil => exact absurd pieces (List.splitOn_ne_nil char text)
        | cons head others =>
            rw [pieces] at member hypothesis
            rcases List.mem_cons.mp member with rfl | later
            · exact List.not_mem_cons_of_ne_of_not_mem other
                (hypothesis List.mem_cons_self)
            · exact hypothesis (List.mem_cons_of_mem _ later)

/-- The names a path leads through are components without a slash. -/
theorem names_of_walk
    {dir : Text}
    {names : List Text}
    (walked : Segment.walk [] (typedSegments dir) = some names)
    {name : Text}
    (member : name ∈ names) :
    '/' ∉ name ∧ name ≠ [] ∧ name ≠ ['.'] ∧ name ≠ ['.', '.'] := by
  rcases Segment.mem_of_walk walked member with root | leads
  · exact absurd root List.not_mem_nil
  · obtain ⟨component, piece, same⟩ := List.mem_map.mp leads
    obtain ⟨rfl, isName⟩ := segmentOf_eq_down same
    exact ⟨notMem_of_mem_splitOn piece, isName⟩

/-- The segments of joined names. -/
theorem splitOn_joinSegments
    {names : List Text}
    (someName : names ≠ [])
    (plain : ∀ name ∈ names, '/' ∉ name) :
    (joinSegments names).splitOn '/' = names :=
  List.splitOn_intercalate _ plain someName

/-- What is left of a path is normalized, and normalizing it again keeps it. -/
theorem normalized_of_walk
    {dir : Text}
    {names : List Text}
    (walked : Segment.walk [] (typedSegments dir) = some names) :
    Normalized (joinSegments names) ∧
      seedRelative (joinSegments names) = some (joinSegments names) := by
  by_cases root : names = []
  · subst root
    exact ⟨.inl rfl, rfl⟩
  · have pieces := splitOn_joinSegments root fun name member =>
      (names_of_walk walked member).1
    refine ⟨.inr ?_, ?_⟩
    · rw [pieces]
      exact fun name member => (names_of_walk walked member).2
    · have path : typedSegments (joinSegments names) = names.map .down := by
        rw [typedSegments, pieces]
        exact List.map_congr_left fun name member =>
          segmentOf_of_name (names_of_walk walked member).2
      rw [seedRelative_eq, path, Segment.walk_down]
      rfl

end Shellmux
end Marsh
