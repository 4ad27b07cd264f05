import ServiceConfig.Disk
import ServiceConfig.Live

/-! # Sessions

A service in its surroundings: the live configuration and the files that change around it. Each step
of a session changes one of the two, and can be observed by what it logs and reports.
-/

namespace ServiceConfig

structure Session where
  live : Live
  disk : Disk

namespace Session

inductive Step
  | load (path : String)
  | reload
  | write (path : String) (bytes : List UInt8)
  | remove (path : String)
  | log (step : Log.Step)

/-- What can be observed of a step. -/
structure Answer where
  outcome : Log.Outcome
  error? : Option ConfigError

def Answer.quiet : Answer := ⟨.quiet, none⟩

/-- What the live configuration is to do in a step. -/
def plan (session : Session) : Step → Plan
  | .load path => .load session.disk.read path
  | .reload => .reload session.disk.read session.live.path?
  | .write _ _ | .remove _ => .nothing
  | .log step => .logging step

def diskStep (disk : Disk) : Step → Disk
  | .write path bytes => disk.write path bytes
  | .remove path => disk.remove path
  | .load _ | .reload | .log _ => disk

def step (session : Session) (step : Step) : Session × Answer :=
  let report := session.live.carryOut (session.plan step)
  (⟨report.live, diskStep session.disk step⟩, ⟨report.outcome, report.error?⟩)

/-- The answers to the steps of a run, and the session at its end. -/
def run (session : Session) : List Step → Session × List Answer
  | [] => (session, [])
  | step :: rest =>
    let (next, answer) := session.step step
    let (last, answers) := next.run rest
    (last, answer :: answers)

end Session

end ServiceConfig
