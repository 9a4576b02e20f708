import Marsh.Shellmux.Deliveries

/-!
# Frontends

The displays a mux delivers to, and the state the contract makes each of them
keep: its geometry, its binding and the handle per job name.
-/

namespace Marsh
namespace Shellmux

/-! ## Geometry -/

/-- Rows before columns. -/
structure TerminalSize where
  rows : UInt16
  cols : UInt16
  deriving DecidableEq, Repr

namespace TerminalSize

/-- What `validate_size` accepts. -/
def Valid (size : TerminalSize) : Prop :=
  ¬(size.rows = 0 ∨ size.cols = 0)

instance (size : TerminalSize) : Decidable size.Valid :=
  inferInstanceAs (Decidable (¬_))

/-- The geometry both of two displays fit. -/
def fit (left right : TerminalSize) : TerminalSize :=
  ⟨min left.rows right.rows, min left.cols right.cols⟩

@[simp] theorem fit_self (size : TerminalSize) : size.fit size = size :=
  congrArg₂ TerminalSize.mk (ite_self size.rows) (ite_self size.cols)

end TerminalSize

/-! ## Observations -/

/-- An observation a mux delivers: one about a job, or one about all of them. -/
inductive Observation
  /-- The job table, the selection or a merge moved on. -/
  | changed
  /-- Something happened to one job. -/
  | about (event : FrontendEvent)
  /-- A new geometry was accepted. -/
  | resized (size : TerminalSize)
  deriving DecidableEq, Repr

/-! ## What every display keeps -/

/-- The state every display keeps. -/
structure FrontendBinding where
  /-- What it was built with, then whatever the last resize said. -/
  size : TerminalSize
  /-- Whether a live mux is bound. -/
  isBound : Bool
  /-- The current handle per job name. -/
  handles : String -> Option Sandbox

namespace FrontendBinding

/-- A binding to no mux yet. -/
def new (size : TerminalSize) : FrontendBinding where
  size := size
  isBound := false
  handles _ := none

/-- Binds to a mux, or detaches, which releases every handle. -/
def bind (binding : FrontendBinding) (live : Bool) : FrontendBinding :=
  { binding with
    isBound := live
    handles := if live then binding.handles else fun _ => none }

/-- Keeps the geometry and the handles current. -/
def observe
    (binding : FrontendBinding) : Observation -> FrontendBinding
  | .about (.opened shell) =>
      { binding with
        handles := Function.update binding.handles shell.id (some shell) }
  | .about (.closed shell) =>
      if (binding.handles shell.id).any fun held => held.uid = shell.uid then
        { binding with handles := Function.update binding.handles shell.id none }
      else binding
  | .resized size => { binding with size := size }
  | .changed | .about (.terminal _ _) | .about (.instrumentation _ _)
  | .about (.finished _ _) | .about (.ioError _) => binding

/-- Only a resize changes the geometry. -/
theorem size_observe_about
    (binding : FrontendBinding)
    (event : FrontendEvent) :
    (binding.observe (.about event)).size = binding.size := by
  cases event with
  | closed shell =>
      rw [observe]
      split_ifs <;> rfl
  | opened | terminal | instrumentation | finished | ioError => rfl

end FrontendBinding

/-! ## One display, or two over one mux -/

/-- A user interface over the jobs of one mux. -/
inductive Frontend
  /-- One display. -/
  | display (binding : FrontendBinding)
  /-- Two frontends, each told everything. -/
  | join (left right : Frontend)

namespace Frontend

/-- The geometry a frontend reports. -/
def size : Frontend -> TerminalSize
  | display binding => binding.size
  | join left right => left.size.fit right.size

/-- Binds every display. -/
def bind (live : Bool) : Frontend -> Frontend
  | display binding => display (binding.bind live)
  | join left right => join (left.bind live) (right.bind live)

/-- Delivers one observation to every display. -/
def update (observation : Observation) : Frontend -> Frontend
  | display binding => display (binding.observe observation)
  | join left right => join (left.update observation) (right.update observation)

/-- The frontends this one consists of, itself included. -/
def parts : Frontend -> List Frontend
  | display binding => [display binding]
  | join left right => join left right :: (left.parts ++ right.parts)

theorem self_mem_parts (frontend : Frontend) : frontend ∈ frontend.parts := by
  cases frontend <;> exact List.mem_cons_self

@[simp] theorem size_bind (frontend : Frontend) (live : Bool) :
    (frontend.bind live).size = frontend.size := by
  induction frontend with
  | display binding => rfl
  | join left right leftSize rightSize =>
      simp only [bind, size, leftSize, rightSize]

/-- After a resize every part reports the new geometry. -/
theorem size_of_mem_parts_resized
    (frontend : Frontend)
    (size : TerminalSize) :
    ∀ part ∈ (frontend.update (.resized size)).parts, part.size = size := by
  induction frontend with
  | display binding =>
      intro part member
      obtain rfl := List.mem_singleton.mp member
      rfl
  | join left right leftParts rightParts =>
      intro part member
      rcases List.mem_cons.mp member with rfl | inside
      · change (left.update _).size.fit (right.update _).size = size
        rw [leftParts _ (self_mem_parts _), rightParts _ (self_mem_parts _),
          TerminalSize.fit_self]
      · rcases List.mem_append.mp inside with inLeft | inRight
        · exact leftParts part inLeft
        · exact rightParts part inRight

theorem size_update_about
    (frontend : Frontend)
    (event : FrontendEvent) :
    (frontend.update (.about event)).size = frontend.size := by
  induction frontend with
  | display binding => exact binding.size_observe_about event
  | join left right leftSize rightSize =>
      simp only [update, size, leftSize, rightSize]

/-- An observation about a job leaves the geometry of every part. -/
theorem sizes_update_about
    (frontend : Frontend)
    (event : FrontendEvent) :
    (frontend.update (.about event)).parts.map size =
      frontend.parts.map size := by
  induction frontend with
  | display binding =>
      change [(binding.observe (.about event)).size] = [binding.size]
      rw [binding.size_observe_about]
  | join left right leftSizes rightSizes =>
      change ((join left right).update (.about event)).size ::
          ((left.update _).parts ++ (right.update _).parts).map size =
        (join left right).size :: (left.parts ++ right.parts).map size
      rw [size_update_about, List.map_append, List.map_append, leftSizes,
        rightSizes]

end Frontend

/-! ## What a delivery tells -/

/-- The observations a step delivers. -/
def DeliveryStep.tells : DeliveryStep -> List FrontendEvent
  | .announceOpened sandbox => [.opened sandbox]
  | .announceFinished _ _ shell exitCode _ => [.finished shell exitCode]
  | .read shell _ _ stream result => stream.event shell result
  | .announceClosed shell => [.closed shell]
  | .job _ _ _ | .refuseSize _ | .deliverFailure _ _ | .onFinish _ _ | .join
  | .abort => []

end Shellmux
end Marsh
