import BlockScript.Graph.Block

/-!
# Snapshots

A snapshot is a graph as a document gives it: blocks and the connections between their
sockets.  Its references may be malformed; `Snapshot.Valid` asks only for what a document must
satisfy to be read at all.
-/

namespace BlockScript

/-- A connection from an outlet of one block to an inlet of another. -/
structure Connection where
  source : BlockId
  outlet : String := "Out"
  target : BlockId
  inlet : String := "In"
  deriving DecidableEq, Repr

namespace Connection

/-- How a connection is named in messages. -/
def label (c : Connection) : String :=
  c.source ++ "." ++ c.outlet ++ " -> " ++ c.target ++ "." ++ c.inlet

end Connection

structure Snapshot where
  blocks : List Block := []
  connections : List Connection := []
  deriving DecidableEq, Repr

namespace Snapshot

def maxBlocks : Nat := 500

def maxConnections : Nat := 2000

/-- What reading a document guarantees. -/
structure Valid (s : Snapshot) : Prop where
  blocks_le : s.blocks.length ≤ maxBlocks
  connections_le : s.connections.length ≤ maxConnections
  ids_nodup : (s.blocks.map Block.id).Nodup
  ids_nonempty : ∀ b ∈ s.blocks, b.id ≠ ""
  ends_nonempty : ∀ c ∈ s.connections, c.source ≠ "" ∧ c.target ≠ ""

end Snapshot

end BlockScript
