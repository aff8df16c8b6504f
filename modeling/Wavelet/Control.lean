/-!
# Relationships and control values

The two enumerations of the crate root: how a child depends on a parent, and what a
node's cycle function asks the executor to do.
-/

namespace Wavelet

inductive Relationship where
  | trigger
  | observe
  deriving DecidableEq, Repr

inductive Control where
  | broadcast
  | unchanged
  | terminate
  | sweep
  deriving DecidableEq, Repr

/-- `From<bool>`. -/
def Control.from (value : Bool) : Control := if value then .broadcast else .unchanged

end Wavelet
