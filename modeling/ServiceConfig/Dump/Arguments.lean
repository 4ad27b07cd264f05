/-! # Arguments of the dump command

The command takes one file and its options in any order. An option's value follows it, or is joined
to it by an equals sign; only a joined value may begin with a dash. After `--` everything is a file.
No option may be repeated. The parser of the command is a third party's; this one stands in for it
on the command lines that it reads, and has nothing to say about others.
-/

namespace ServiceConfig.Dump

structure Options where
  file : String
  find? : Option String
  caseSensitive : Bool
  valuesOnly : Bool
  deriving DecidableEq, Repr

/-- What the arguments read so far have set. -/
structure Given where
  file? : Option String
  find? : Option String
  caseSensitive : Bool
  valuesOnly : Bool

def Given.nothing : Given := ⟨none, none, false, false⟩

def Given.setFile? (given : Given) (file : String) : Option Given :=
  if given.file?.isSome || file.isEmpty then none else some { given with file? := some file }

def Given.setFind? (given : Given) (name : String) : Option Given :=
  if given.find?.isSome then none else some { given with find? := some name }

def Given.setFlag? (given : Given) (option : String) (joined? : Option String) : Option Given :=
  if joined?.isSome then none
  else if option = "--entry" then
    if given.valuesOnly then none else some { given with valuesOnly := true }
  else
    if given.caseSensitive then none else some { given with caseSensitive := true }

def Given.finish? (given : Given) : Option Options :=
  match given.file? with
  | none => none
  | some file =>
    if given.valuesOnly && given.find?.isNone then none
    else some ⟨file, given.find?, given.caseSensitive, given.valuesOnly⟩

/-- An argument that is an option, or looks like one. A lone dash does not. -/
def looksLikeOption (argument : String) : Bool :=
  match argument.toList with
  | '-' :: _ :: _ => true
  | _ => false

/-- The part before the first equals sign, and the value joined by it. -/
def splitJoined (argument : String) : String × Option String :=
  let chars := argument.toList
  let name := String.ofList (chars.takeWhile (· ≠ '='))
  match chars.dropWhile (· ≠ '=') with
  | [] => (name, none)
  | _ :: value => (name, some (String.ofList value))

def Given.read? (given : Given) : List String → Option Given
  | [] => some given
  | argument :: rest =>
    if argument = "--" then rest.foldlM Given.setFile? given
    else if looksLikeOption argument then
      match splitJoined argument with
      | ("--find", some name) => do (← given.setFind? name).read? rest
      | ("--find", none) =>
        match rest with
        | [] => none
        | name :: later =>
          if looksLikeOption name then none else do (← given.setFind? name).read? later
      | (option, joined?) =>
        if option = "--entry" || option = "--case-sensitive" then do
          (← given.setFlag? option joined?).read? rest
        else none
    else do (← given.setFile? argument).read? rest

/-- The options that a command line asks for, if it is one. -/
def Options.ofArguments? (arguments : List String) : Option Options := do
  (← Given.nothing.read? arguments).finish?

end ServiceConfig.Dump
