import ServiceConfig.Files
import ServiceConfig.Path
import ServiceConfig.Text.Utf8

/-! # Directories and files in memory

A disk holds the files and directories below a working directory. What lies above it is not known:
those directories exist, and nothing is found in them. A path is walked component by component, and
what every operation does depends on where the walk ends or on what stops it.
-/

namespace ServiceConfig

/-- Files and directories are kept by the names that lead to them. -/
structure Disk where
  files : List (List String × List UInt8)
  directories : List (List String)

namespace Disk

def empty : Disk := ⟨[], []⟩

def maxNameBytes : Nat := 255
def maxPathBytes : Nat := 4095

def byteLength (text : String) : Nat := (Utf8.encode text).length

def file? (disk : Disk) (names : List String) : Option (List UInt8) := disk.files.lookup names

def isDirectory (disk : Disk) (names : List String) : Bool :=
  names.isEmpty || disk.directories.contains names

/-- Where a walk stands: at the names walked so far, or above the working directory. -/
inductive Place
  | below (names : List String)
  | above
  deriving DecidableEq, Repr

/-- The components of a path, an empty one for each separator that separates nothing. -/
def components (path : String) : List String := path.splitOn "/"

/-- Components that lead nowhere; they still need a directory to stand in. -/
def isIdle (component : String) : Bool := component = "" || component = "."

/-- One component further: only a directory can be left, and only towards what exists. -/
def step (disk : Disk) (place : Place) (component : String) : Except FileFault Place :=
  match place with
  | .above =>
    if isIdle component || component = ".." then .ok .above
    else if byteLength component > maxNameBytes then .error .nameTooLong
    else .error .notFound
  | .below names =>
    if !disk.isDirectory names then .error .notADirectory
    else if isIdle component then .ok place
    else if component = ".." then .ok (if names.isEmpty then .above else .below names.dropLast)
    else if byteLength component > maxNameBytes then .error .nameTooLong
    else
      let next := names ++ [component]
      if disk.isDirectory next || (disk.file? next).isSome then .ok (.below next)
      else .error .notFound

def origin (path : String) : Place := if Path.isAbsolute path then .above else .below []

/-- Where a path leads, or the first obstacle on the way there. -/
def walk (disk : Disk) (path : String) : Except FileFault Place :=
  if path.toList.contains '\x00' then .error .nulInName
  else if path.isEmpty then .error .notFound
  else if byteLength path > maxPathBytes then .error .nameTooLong
  else (components path).foldlM disk.step (origin path)

def read (disk : Disk) : Files := fun path => do
  match ← disk.walk path with
  | .above => .error .isADirectory
  | .below names =>
    if disk.isDirectory names then .error .isADirectory
    else match disk.file? names with
      | some bytes => .ok bytes
      | none => .error .notFound

/-- One component further, making the directory that is missing; other obstacles remain. -/
def makeStep (state : Disk × Except FileFault Place) (component : String) :
    Disk × Except FileFault Place :=
  match state with
  | (disk, .error fault) => (disk, .error fault)
  | (disk, .ok place) =>
    match place, disk.step place component with
    | .below names, .error .notFound =>
      let next := names ++ [component]
      ({ disk with directories := next :: disk.directories }, .ok (.below next))
    | _, reached => (disk, reached)

/-- Makes every directory that a path passes through, also those that `..` leaves again. -/
def makeDirectory (disk : Disk) (path : String) : Disk :=
  ((components path).foldl makeStep (disk, .ok (origin path))).1

def removeFile (disk : Disk) (names : List String) : Disk :=
  { disk with files := disk.files.filter (·.1 ≠ names) }

/-- Removes the file at a path, if there is one. -/
def remove (disk : Disk) (path : String) : Disk :=
  match disk.walk path with
  | .ok (.below names) => disk.removeFile names
  | _ => disk

/-- Puts a file into a directory, unless its name is taken by a directory or cannot be one. -/
def put (disk : Disk) (directory : List String) (name : String) (bytes : List UInt8) : Disk :=
  let names := directory ++ [name]
  if isIdle name || name = ".." || byteLength name > maxNameBytes || disk.isDirectory names ||
      !disk.isDirectory directory then disk
  else { disk.removeFile names with files := (names, bytes) :: (disk.removeFile names).files }

/-- Puts a file at a path, with the directories that lead to it. -/
def write (disk : Disk) (path : String) (bytes : List UInt8) : Disk :=
  let prepared := ((Path.parent? path).map disk.makeDirectory).getD disk
  let parts := components path
  match parts.dropLast.foldlM prepared.step (origin path) with
  | .ok (.below directory) => prepared.put directory (parts.getLastD "") bytes
  | _ => prepared

end Disk

end ServiceConfig
