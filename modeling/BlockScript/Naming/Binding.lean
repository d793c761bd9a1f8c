import BlockScript.Graph.Container

/-!
# Bindings

A binding gives the result of a block a variable name.  All bindings of one generation stand
in one table, in the order they were made.  A view shows some stretches of the table: those of
the scopes around a place, and none of their siblings.

* `Table.publish`: adds the bindings of a scope, and gives the view its zones read through.
* `Table.lookup`: the name of a block as a view shows it.
-/

namespace BlockScript

structure Binding where
  blockId : BlockId
  name : String
  deriving DecidableEq, Repr

/-- The name that a list of bindings gives to a block. -/
def Binding.nameIn (bindings : List Binding) (id : BlockId) : Option String :=
  (bindings.find? (·.blockId == id)).map Binding.name

/-- A list of bindings with one more; a block that is bound already keeps its place and takes
the new name. -/
def Binding.set (binding : Binding) : List Binding → List Binding
  | [] => [binding]
  | b :: rest => if b.blockId = binding.blockId then binding :: rest else b :: set binding rest

/-- The bindings of one generation. -/
structure Table where
  entries : List Binding := []
  deriving DecidableEq, Repr

/-- The table positions from `start` up to, and without, `stop`. -/
structure Span where
  start : Int
  stop : Int
  deriving DecidableEq, Repr

def Span.covers (s : Span) (position : Nat) : Bool := s.start ≤ position && position < s.stop

/-- The stretches of the table that can be seen from a place. -/
structure View where
  spans : List Span := []
  deriving DecidableEq, Repr

/-- The view that shows one stretch more; an empty stretch changes nothing. -/
def View.extended (v : View) (start stop : Int) : View :=
  if start = stop then v else ⟨v.spans ++ [⟨start, stop⟩]⟩

namespace Table

def size (t : Table) : Nat := t.entries.length

def position? (t : Table) (id : BlockId) : Option Nat := t.entries.findIdx? (·.blockId == id)

/-- Adds a binding at the end, unless its block is bound already. -/
def append (t : Table) (binding : Binding) : Table :=
  if (t.position? binding.blockId).isSome then t else ⟨t.entries ++ [binding]⟩

/-- Adds the bindings of one scope; the view shows them beside what its parent shows. -/
def publish (t : Table) (bindings : List Binding) (parent : View) : Table × View :=
  let table := bindings.foldl append t
  (table, parent.extended t.size table.size)

/-- The name of a block, if a stretch that is seen holds it. -/
def lookup (t : Table) (view : View) (id : BlockId) : Option String :=
  (t.position? id).bind fun position =>
    if view.spans.any (·.covers position) then t.entries[position]?.map Binding.name else none

end Table

end BlockScript
