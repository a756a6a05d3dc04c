/-
# FlowFixpoint.Settings.Basic — the settings of a run.

The defaults depend on how the library was built: only a build for debugging checks merges unless it
is told otherwise.
-/

namespace FlowFixpoint

/-- How the library was built. -/
inductive BuildProfile where
  | debug
  | release
deriving DecidableEq

/-- The settings of a run. -/
structure Settings where
  /-- Changes of a widening point's input before merges there are widened. -/
  wideningThreshold : Nat
  /-- Visits allowed before a run is given up. -/
  maxVisits : Nat
  /-- Is every merge checked to be an upper bound of what it merged? -/
  checkContracts : Bool
deriving DecidableEq

/-- The settings of a run that is told nothing. -/
def Settings.default (profile : BuildProfile) : Settings where
  wideningThreshold := 3
  maxVisits := 100000
  checkContracts := profile = .debug

end FlowFixpoint
