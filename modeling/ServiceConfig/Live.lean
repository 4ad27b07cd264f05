import ServiceConfig.Trail
import ServiceConfig.Tree.Typed

/-! # The live configuration

A service keeps the tree it runs on, the path it was last told to load, and its logger. What it does
is planned as deeds, which are carried out one after the other until a hook fails. A load either
installs the new tree, with the debug switch that the tree may hold, or leaves tree and switch as
they were. Either way it logs one message about it, after everything else has happened.
-/

namespace ServiceConfig

structure Live where
  logger : Log.Logger
  tree? : Option Tree
  path? : Option String

/-- One thing that is done to a live configuration. -/
inductive Deed
  | remember (path : String)
  | adopt (tree : Tree)
  | tell (step : Log.Step)

/-- What is to be done: what is traced first, the deeds in order, and the error that is returned
when they are done, if any. -/
structure Plan where
  trail : List Record
  deeds : List Deed
  error? : Option ConfigError

/-- What a plan comes to: the configuration afterwards, what was traced before the deeds, what they
logged, and the error that was returned, if any. -/
structure Report where
  live : Live
  trail : List Record
  outcome : Log.Outcome
  error? : Option ConfigError

namespace Live

def new (logger : Log.Logger) : Live := ⟨logger, none, none⟩

/-- The source that the messages of loads carry. -/
def source : String := "conf"

/-- The tree of a file and its debug switch, if both can be read. -/
def candidate (files : Files) (path : String) : Except ConfigError (Tree × Option Bool) := do
  let tree ← Tree.read files path
  let debug? ← tree.findBool Tree.root { name := "debug" }
  return (tree, debug?)

def loadedMessage (path : String) (tree : Tree) : String :=
  "loaded " ++ path ++ " (" ++ toString tree.size ++ " entries)"

def act (live : Live) : Deed → Live × Log.Outcome
  | .remember path => ({ live with path? := some path }, .quiet)
  | .adopt tree => ({ live with tree? := some tree }, .quiet)
  | .tell step =>
    let (logger, outcome) := live.logger.step step
    ({ live with logger := logger }, outcome)

/-- One deed after the other. What a deed has done stays when a hook fails, and nothing more is
done. -/
def perform (live : Live) : List Deed → Live × Log.Outcome
  | [] => (live, .quiet)
  | deed :: rest =>
    let (next, outcome) := live.act deed
    if outcome.failed then (next, outcome)
    else
      let (last, later) := next.perform rest
      (last, ⟨outcome.events ++ later.events, later.failed⟩)

/-- Nothing is returned when a hook fails, not even the error that is logged. -/
def carryOut (live : Live) (plan : Plan) : Report :=
  let (last, outcome) := live.perform plan.deeds
  ⟨last, plan.trail, outcome, if outcome.failed then none else plan.error?⟩

end Live

namespace Plan

def nothing : Plan := ⟨[], [], none⟩

/-- A file that cannot be read is traced as rejected; a value that cannot be interpreted is found
only after that. -/
def trailOf (files : Files) (path : String) : List Record :=
  let rejected :=
    match Tree.read files path with
    | .error error => [.rejected path error.kind]
    | .ok _ => []
  Tree.readTrail files path ++ rejected

/-- An attempt on a path, which is judged before anything is changed. -/
def attempt (files : Files) (path : String) : Plan :=
  match Live.candidate files path with
  | .error error =>
    ⟨trailOf files path, [.tell (.log ⟨.error, Live.source, error.message⟩)], some error⟩
  | .ok (tree, debug?) =>
    let switched := debug?.toList.map fun on => .tell (.setDebug on)
    let notice := .tell (.log ⟨.notice, Live.source, Live.loadedMessage path tree⟩)
    ⟨trailOf files path, .adopt tree :: switched ++ [notice], none⟩

/-- A load; the path is remembered whether or not the attempt succeeds. -/
def load (files : Files) (path : String) : Plan :=
  let attempted := attempt files path
  { attempted with deeds := .remember path :: attempted.deeds }

/-- Another attempt on the path that is remembered, if there is one. -/
def reload (files : Files) (path? : Option String) : Plan := path?.elim nothing (attempt files)

def logging (step : Log.Step) : Plan := ⟨[], [.tell step], none⟩

end Plan

end ServiceConfig
