import ServiceConfig.Log.Level

/-! # Loggers

A logger forwards each message to the trace and then to the hooks of its level, in the order in
which they were added. A hook is known by what it does with a message: it records the message, may
log messages of its own, and may fail. Hooks inside hooks nest at most `maxNesting` deep; a message
beyond that is dropped, as are debug messages while debugging is off. A failing hook ends the whole
dispatch at once, at all levels of nesting.
-/

namespace ServiceConfig.Log

def maxNesting : Nat := 10

structure Message where
  level : Level
  source : String
  text : String
  deriving DecidableEq, Repr

/-- A hook for the messages of a level. It is the message it is called with that decides what the
hook logs, and whether it fails when it has logged that. -/
structure Hook where
  level : Level
  tag : String
  replies : Message → List Message
  showsLogger : Bool
  fails : Message → Bool

/-- A hook that only records. -/
def Hook.recorder (level : Level) (tag : String) : Hook :=
  ⟨level, tag, fun _ => [], false, fun _ => false⟩

/-- What can be observed of a dispatch: a message forwarded to the trace, or a call of a hook, with
the text of the logger at that moment if the hook shows it. -/
inductive Event
  | traced (message : Message)
  | called (tag : String) (message : Message) (logger? : Option String)
  deriving DecidableEq, Repr

/-- The events of a computation, and whether a hook failed and ended it. -/
structure Outcome where
  events : List Event
  failed : Bool
  deriving DecidableEq, Repr

namespace Outcome

def quiet : Outcome := ⟨[], false⟩

/-- Goes on with `next` unless the first part failed. -/
def andThen (first : Outcome) (next : Unit → Outcome) : Outcome :=
  if first.failed then first
  else
    let second := next ()
    ⟨first.events ++ second.events, second.failed⟩

/-- One computation per item, up to the first that fails. -/
def forEach {α : Type} (run : α → Outcome) : List α → Outcome
  | [] => quiet
  | item :: rest => (run item).andThen fun _ => forEach run rest

end Outcome

/-- A logger inside `depth` dispatches. -/
structure Logger where
  hooks : List Hook
  debug : Bool
  depth : Nat

namespace Logger

def empty : Logger := ⟨[], false, 0⟩

def setDebug (logger : Logger) (on : Bool) : Logger := { logger with debug := on }
def addHook (logger : Logger) (hook : Hook) : Logger :=
  { logger with hooks := logger.hooks ++ [hook] }

def hooksFor (logger : Logger) (level : Level) : List Hook :=
  logger.hooks.filter (·.level = level)

def describe (logger : Logger) : String :=
  "Logger \x7b hooks: " ++ toString logger.hooks.length ++ ", depth: " ++ toString logger.depth ++
    ", debug: " ++ toString logger.debug ++ " \x7d"

/-- The logger as the hooks of one more dispatch see it. -/
def enter (logger : Logger) : Logger := { logger with depth := logger.depth + 1 }

/-- Whether messages of a level are dispatched at all. -/
def accepts (logger : Logger) (level : Level) : Bool := level ≠ .debug || logger.debug

/-- The call of a hook; `log` is how it logs messages of its own. -/
def call (logger : Logger) (log : Message → Outcome) (message : Message) (hook : Hook) : Outcome :=
  let shown? := if hook.showsLogger then some logger.describe else none
  let recorded : Outcome := ⟨[.called hook.tag message shown?], false⟩
  let replied := recorded.andThen fun _ =>
    Outcome.forEach log (hook.replies message)
  if hook.fails message then { replied with failed := true } else replied

/-- Dispatches a message where so many more dispatches fit inside one another. -/
def dispatch : (room : Nat) → Logger → Message → Outcome
  | 0, _, _ => .quiet
  | room + 1, logger, message =>
    if logger.accepts message.level then
      let traced : Outcome := ⟨[.traced message], false⟩
      traced.andThen fun _ =>
        Outcome.forEach (logger.enter.call (dispatch room logger.enter) message)
          (logger.hooksFor message.level)
    else .quiet

def log (logger : Logger) (message : Message) : Outcome :=
  dispatch (maxNesting - logger.depth) logger message

end Logger

inductive Step
  | log (message : Message)
  | setDebug (on : Bool)
  | addHook (hook : Hook)

/-- A step changes the logger or is observed, never both: a dispatch that has ended, by a failing
hook or otherwise, leaves nothing behind. -/
def Logger.step (logger : Logger) : Step → Logger × Outcome
  | .log message => (logger, logger.log message)
  | .setDebug on => (logger.setDebug on, .quiet)
  | .addHook hook => (logger.addHook hook, .quiet)

/-- The outcomes of the steps of a run, and the logger at its end. -/
def Logger.run (logger : Logger) : List Step → Logger × List Outcome
  | [] => (logger, [])
  | step :: rest =>
    let (next, outcome) := logger.step step
    let (last, outcomes) := next.run rest
    (last, outcome :: outcomes)

end ServiceConfig.Log
