/-!
# Paths

A path as the commands name it: empty and `.` segments are left out, and a path without
segments is the directory itself.
-/

namespace BlockScript.Command

structure Path where
  /-- The slashes in front of an absolute path. -/
  root : String
  segments : List String
  deriving DecidableEq, Repr

namespace Path

/-- Two slashes in front are a root of their own; more count as one. -/
def ofString (s : String) : Path :=
  let slashes := (s.toList.takeWhile (· == '/')).length
  let pieces := (s.toList.splitOn '/').filter fun piece => piece != [] && piece != ['.']
  { root := if slashes == 0 then "" else if slashes == 2 then "//" else "/"
    segments := pieces.map String.ofList }

def toString (p : Path) : String :=
  match p.root ++ "/".intercalate p.segments with
  | "" => "."
  | text => text

/-- The directory that holds the path. -/
def parent (p : Path) : Path := { p with segments := p.segments.dropLast }

end Path

end BlockScript.Command
