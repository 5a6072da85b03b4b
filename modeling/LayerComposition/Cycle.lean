/-! # Cycles

A walk that follows references keeps the names it is inside of. Coming back to one of them
closes a cycle.
-/

namespace LayerComposition

/-- Names in the order of reference, from a name back to that name. -/
abbrev Cycle := List String

namespace Cycle

/-- The cycle that a walk closes by coming back to `name`. The walk's path is given with the
    name entered last in front. -/
def close (path : List String) (name : String) : Cycle :=
  name :: ((path.takeWhile (· ≠ name)).reverse ++ [name])

end Cycle

end LayerComposition
