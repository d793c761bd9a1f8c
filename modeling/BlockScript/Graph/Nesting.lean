import BlockScript.Diagnostic.Finding

/-!
# Nesting

Which zone a block lies in.  The zones of the containers list their children in order; the
first zone that lists a block has it, and no block can lie in itself.  Where containers list
each other in a circle, the first block of the circle in snapshot order is set free, so that
the blocks form a forest.
-/

namespace BlockScript

/-- The place of every nested block. -/
abbrev Parents := List (BlockId × Place)

/-- The containers around a block, innermost first, at most `fuel` of them. -/
def Parents.climb (parents : Parents) : Nat → BlockId → List BlockId
  | 0, _ => []
  | fuel + 1, id => match parents.lookup id with
    | none => []
    | some place => place.container :: climb parents fuel place.container

/-- The containers around a block, innermost first.  A walk that meets no block twice has at
most one step for each nested block. -/
def Parents.ancestors (parents : Parents) (id : BlockId) : List BlockId :=
  parents.climb parents.length id

structure Nesting where
  parents : Parents := []
  findings : List Finding := []
  deriving DecidableEq, Repr

namespace Nesting

def note (n : Nesting) (finding : Finding) : Nesting :=
  { n with findings := n.findings ++ [finding] }

/-- The zone `listing.1` lists the child `listing.2`. -/
def adopt (blocks : List Block) (n : Nesting) (listing : Place × BlockId) : Nesting :=
  let (place, child) := listing
  if (blocks.find? (·.id == child)).isNone then n.note (.danglingChild place child)
  else if child = place.container then n.note (.selfNesting child)
  else match n.parents.lookup child with
    | none => { n with parents := n.parents ++ [(child, place)] }
    | some owner => if owner = place then n else n.note (.adoptedChild child owner place)

/-- Sets a block free that lies inside itself. -/
def release (n : Nesting) (b : Block) : Nesting :=
  if b.id ∈ n.parents.ancestors b.id then
    { parents := n.parents.filter (·.1 != b.id), findings := n.findings ++ [.ownAncestor b.id] }
  else n

end Nesting

namespace Snapshot

/-- The children that the zones list, in the order of blocks, zones and children. -/
def listings (s : Snapshot) : List (Place × BlockId) :=
  s.blocks.flatMap fun b => b.zones.flatMap fun z => z.children.map fun child =>
    (⟨b.id, z.label⟩, child)

/-- The nesting of a snapshot. -/
def nesting (s : Snapshot) : Nesting :=
  s.blocks.foldl Nesting.release (s.listings.foldl (Nesting.adopt s.blocks) {})

end Snapshot

end BlockScript
