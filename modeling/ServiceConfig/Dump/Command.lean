import ServiceConfig.Dump.Arguments
import ServiceConfig.Live
import ServiceConfig.Tree.Outline

/-! # The dump command

Loads a configuration and prints its tree, or the entries of one name at any depth. A failure is
printed as the message that the load logs. Its arguments are read by a parser that is not part of
this program, and neither is the subscriber that prints what the program traces.
-/

namespace ServiceConfig.Dump

structure Output where
  code : Nat
  stdout : String
  stderr : String
  deriving DecidableEq, Repr

/-- A parser of command lines gives the options, or what the program prints instead of doing
anything: a complaint or, where it is asked for, help. -/
abbrev ArgumentParser := List String → Except Output Options

def programName : String := "confdump"

def usage : String := "Usage: confdump [OPTIONS] <FILE>\n"

/-- A parser that answers with the usage whatever it cannot read. -/
def parser : ArgumentParser := fun arguments =>
  match Options.ofArguments? arguments with
  | none => .error ⟨2, "", usage⟩
  | some options => .ok options

/-- The logger of the command prints errors and nothing else. -/
def logger : Log.Logger := Log.Logger.empty.addHook (.recorder .error programName)

/-- What is printed on the error stream for an event, where a number stands for the time. -/
def eventText (subscriber : Subscriber) (time : Nat) : Log.Event → String
  | .traced message => subscriber.print time message.record
  | .called tag message _ => tag ++ ": " ++ message.text ++ "\n"

/-- What a load prints on the error stream: the records of its trail, and then its events. -/
def errorText (subscriber : Subscriber) (report : Report) : String :=
  subscriber.text report.trail ++
    String.join (report.outcome.events.mapIdx fun number event =>
      eventText subscriber (report.trail.length + number) event)

/-- One entry that was asked for: a leaf with its value, a block with all that is in it. -/
def entryText (tree : Tree) (entry : Entry) : String :=
  match entry.children? with
  | some children => "[" ++ entry.header ++ "]\n" ++ tree.display children
  | none => entry.name ++ " = " ++ entry.value?.getD "" ++ "\n"

def Options.query (options : Options) (name : String) : Query :=
  { name := name, caseSensitive := options.caseSensitive, recursive := true }

def text (options : Options) (tree : Tree) : String :=
  match options.find? with
  | none => tree.display Tree.root
  | some name =>
    if options.valuesOnly then
      String.join ((tree.matchingLeaves Tree.root (options.query name)).map (·.2 ++ "\n"))
    else
      String.join (((tree.matching Tree.root (options.query name)).filterMap tree.entry?).map
        (entryText tree))

def dump (subscriber : Subscriber) (files : Files) (options : Options) : Output :=
  let report := (Live.new logger).carryOut (.load files options.file)
  let stderr := errorText subscriber report
  match report.live.tree? with
  | none => ⟨1, "", stderr⟩
  | some tree => ⟨0, text options tree, stderr⟩

/-- An output behind what is on the error stream already. -/
def Output.behind (output : Output) (printed : String) : Output :=
  { output with stderr := printed ++ output.stderr }

/-- The whole command: what it prints, and its exit code. The subscriber is installed before the
arguments are read. -/
def run (parser : ArgumentParser) (subscriber : Subscriber) (files : Files)
    (arguments : List String) : Output :=
  match parser arguments with
  | .error instead => instead.behind subscriber.start
  | .ok options => (dump subscriber files options).behind subscriber.start

end ServiceConfig.Dump
