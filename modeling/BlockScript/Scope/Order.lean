import BlockScript.Scope.Basic

/-!
# Dependency order

Blocks are visited depth first: what a block depends on comes before it, and blocks that do
not depend on each other keep their order.  A dependency that leads back to a block whose
visit has not ended closes a cycle.
-/

namespace BlockScript

namespace Order

variable {α : Type} [DecidableEq α]

/-- The cycle closed by a dependency on `x`, a block of the path of open visits, innermost
first.  It reads in the direction of the data and names `x` at both ends. -/
def cycleThrough (path : List α) (x : α) : List α := x :: path.takeWhile (· ≠ x) ++ [x]

/-- Visits `x` below the open visits `path`, after those in `done`.  The path grows by a new
block with every level, so a bound of one more than there are blocks is never reached. -/
def visit (dependencies : α → List α) :
    Nat → List α → List α → α → Except (List α) (List α)
  | 0, _, done, _ => .ok done
  | fuel + 1, path, done, x =>
    if x ∈ done then .ok done
    else if x ∈ path then .error (cycleThrough path x)
    else do
      let done ← (dependencies x).foldlM (visit dependencies fuel (x :: path)) done
      return done ++ [x]

/-- The blocks in dependency order, or the first cycle met. -/
def sort (dependencies : α → List α) (blocks : List α) : Except (List α) (List α) :=
  blocks.foldlM (visit dependencies (blocks.length + 1) []) []

end Order

/-- The blocks of a scope in dependency order, or a cycle among them. -/
def Scope.sorted (s : Scope) : Except (List BlockId) (List BlockId) :=
  Order.sort s.dependencies s.ids

/-- The orders in which functions are defined and top-level blocks are run. -/
def Snapshot.orders (g : Index) : Except (List BlockId) (List BlockId × List BlockId) := do
  let main ← g.topScope.sorted
  let functions ← g.callableScope.sorted
  return (functions, main)

end BlockScript
