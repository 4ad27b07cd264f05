/-! # Path texts

Paths are kept as they are written. Only two operations look inside: the parent of a path, next to
which the includes of a file are looked up, and joining a target to it.
-/

namespace ServiceConfig.Path

def separator : Char := '/'

def isAbsolute (path : String) : Bool := path.toList.head? == some separator

/-- The first character when it is not part of a name: the root, or a leading `.` component. -/
def splitAnchor (path : List Char) : List Char × List Char :=
  match path with
  | '/' :: body => (['/'], body)
  | ['.'] => (['.'], [])
  | '.' :: '/' :: body => (['.'], '/' :: body)
  | body => ([], body)

/-- The last component of a reversed text, and the reversed text before its separator. -/
def lastComponent (reversed : List Char) : List Char × List Char :=
  (reversed.takeWhile (· ≠ separator), (reversed.dropWhile (· ≠ separator)).drop 1)

/-- Drops the components at the end of a reversed text that are empty or `.`. -/
def dropIdle (reversed : List Char) : List Char :=
  match reversed with
  | '/' :: rest => dropIdle rest
  | '.' :: '/' :: rest => dropIdle rest
  | ['.'] => []
  | other => other

/-- The path without its last component; neither the empty path nor the root has a parent. -/
def parent? (path : String) : Option String :=
  let (anchor, body) := splitAnchor path.toList
  match dropIdle body.reverse with
  | [] => if anchor = ['.'] then some "" else none
  | named => some (String.ofList (anchor ++ (dropIdle (lastComponent named).2).reverse))

/-- A relative target below a directory; the empty path adds nothing. -/
def join (directory target : String) : String :=
  if directory.isEmpty || directory.toList.getLast? == some separator then directory ++ target
  else directory ++ "/" ++ target

/-- A target as seen from a directory, if there is one; an absolute target stays as it is. -/
def resolve (directory? : Option String) (target : String) : String :=
  match directory? with
  | none => target
  | some directory => if isAbsolute target then target else join directory target

end ServiceConfig.Path
