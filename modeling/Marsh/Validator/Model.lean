import Mathlib.Data.String.Basic

/-!
# Capability events

Owned capability-product values accepted and returned by the validator.
Equality is structural: a resource is its list of path segments, never the
`/`-joined text it is displayed as.
-/

namespace Marsh
namespace Validator

/-- Identity of the actor requesting a capability. -/
structure Principal where
  /-- Exact string value. -/
  value : String
  deriving DecidableEq, Repr

/-- Ordered path segments naming a protected resource. -/
structure Resource where
  /-- Path segments, outermost first. -/
  segments : List String
  deriving DecidableEq, Repr

namespace Resource

/-- Display text: the segments joined with `/`. -/
def display (resource : Resource) : String :=
  "/".intercalate resource.segments

end Resource

/-- Git-like capability action. -/
inductive Action
  | read
  | edit
  | stage
  | unstage
  | commit (message : Option String)
  | checkout
  | stash
  | delete
  | clean
  | diff
  | history
  deriving DecidableEq, Repr

/-- Capability-product event matched by heads and tail atoms. -/
structure Event where
  /-- Actor requesting the capability. -/
  principal : Principal
  /-- Requested operation. -/
  action : Action
  /-- Protected resource. -/
  resource : Resource
  deriving DecidableEq, Repr

/-- Capability request with opaque caller metadata. -/
structure Request (Metadata : Type) where
  /-- Product event evaluated by the policy. -/
  event : Event
  /-- Opaque value passed through unchanged on grant. -/
  metadata : Metadata

/-- Accepted request echoed at the authorization boundary. -/
structure Grant (Metadata : Type) where
  /-- Accepted event, also appended to committed history. -/
  event : Event
  /-- Original request metadata, preserved unchanged. -/
  metadata : Metadata

end Validator
end Marsh
