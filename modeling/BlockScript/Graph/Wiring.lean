import BlockScript.Diagnostic.Finding

/-!
# Wiring

Which connections of a snapshot are followed.  A connection is refused when one of its blocks
is missing, when it leads back into its own block, when a socket does not exist, when it repeats
an accepted connection, and when its inlet has an accepted connection already.  The first
of these reasons is the one reported.
-/

namespace BlockScript

structure Wiring where
  accepted : List Connection := []
  findings : List Finding := []
  deriving DecidableEq, Repr

namespace Wiring

/-- Whether two connections lead into the same inlet. -/
def sameInput (c d : Connection) : Bool := c.target == d.target && c.inlet == d.inlet

/-- Why a connection is refused after those accepted before it, if it is. -/
def refusal? (blocks : List Block) (accepted : List Connection) (c : Connection) :
    Option Finding :=
  match blocks.find? (·.id == c.source), blocks.find? (·.id == c.target) with
  | some source, some target =>
    if c.source = c.target then some (.selfConnection c)
    else if c.outlet ∉ source.outputs ∨ c.inlet ∉ target.inputs then
      some (.unknownSocket c)
    else if c ∈ accepted then some (.duplicateConnection c)
    else if accepted.any (sameInput c) then some (.inputTaken c)
    else none
  | _, _ => some (.danglingConnection c)

def add (blocks : List Block) (w : Wiring) (c : Connection) : Wiring :=
  match refusal? blocks w.accepted c with
  | some finding => { w with findings := w.findings ++ [finding] }
  | none => { w with accepted := w.accepted ++ [c] }

end Wiring

/-- The wiring of a snapshot, its connections taken in order. -/
def Snapshot.wiring (s : Snapshot) : Wiring := s.connections.foldl (Wiring.add s.blocks) {}

end BlockScript
