import ServiceConfig.Dump.Command

/-! # The dump command as a program

The command itself is a function of the files it finds. Which files it needs is only known as it
goes along, so the program runs it on the files read so far until it asks for no others. The program
traces nothing.
-/

namespace ServiceConfig.Main

open Dump

/-- Files read so far, by the path they were asked for under. -/
abbrev Known := List (String × Except FileFault (List UInt8))

def Known.files (known : Known) : Files := fun path => (known.lookup path).getD (.error .notFound)

/-- The file that a run stopped at because it was never read. -/
def Known.missing? (known : Known) (path : String) : Option String :=
  match Document.read known.files path with
  | .error (.file wanted .notFound) => if (known.lookup wanted).isNone then some wanted else none
  | _ => none

def fault : IO.Error → FileFault
  | .noFileOrDirectory _ _ _ => .notFound
  | .inappropriateType _ code _ => if code = 21 then .isADirectory else .notADirectory
  | .invalidArgument _ code _ => if code = 22 then .nulInName else .nameTooLong
  | .permissionDenied _ _ _ => .denied
  | _ => .unreadable

def readFile (path : String) : IO (Except FileFault (List UInt8)) := do
  try
    return .ok (← IO.FS.readBinFile path).toList
  catch error => return .error (fault error)

partial def gather (known : Known) (path : String) : IO Known := do
  match known.missing? path with
  | none => return known
  | some wanted => gather ((wanted, ← readFile wanted) :: known) path

def files (arguments : List String) : IO Files := do
  match parser arguments with
  | .error _ => return Known.files []
  | .ok options => return (← gather [] options.file).files

end ServiceConfig.Main

open ServiceConfig in
def main (arguments : List String) : IO UInt32 := do
  let output := Dump.run Dump.parser .silent (← Main.files arguments) arguments
  IO.print output.stdout
  IO.eprint output.stderr
  return output.code.toUInt32
